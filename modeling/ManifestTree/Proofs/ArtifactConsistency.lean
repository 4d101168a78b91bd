import ManifestTree.Proofs.ArtifactFiles
import ManifestTree.Proofs.ArtifactPlaces
import ManifestTree.Proofs.BuildSteps

/-!
# Artifacts that agree with their sources

An artifact that is newer than its source holds the tree of what the source holds now.  This goes
together with where files and directories are: no directory is in the place of an artifact, and no
file in that of a directory which an artifact needs.  The invariant is kept by whatever changes a
source now, since an artifact was written at the latest now, and by keeping the artifact of what a
source holds.
-/

namespace ManifestTree.Build

/-! ## The places in a project -/

/-- Where the artifact of a source is kept. -/
def artifactOf? (s : FileStore) (root directory source : Path) : Option Location :=
  (key? s root source).map fun key => s.locationOf (Artifact.location key directory)

theorem artifactOf?_of_key {s : FileStore} {root p : Path} {key : Text}
    (h : key? s root p = some key) (directory : Path) :
    artifactOf? s root directory p = some (s.locationOf (Artifact.location key directory)) := by
  simp [artifactOf?, h]

theorem artifactOf?_congr {s s' : FileStore} (h : s'.workingDirectory = s.workingDirectory)
    (root directory source : Path) :
    artifactOf? s' root directory source = artifactOf? s root directory source := by
  simp [artifactOf?, key?_congr h, FileStore.locationOf_congr h]

/-- The places of the sources of a project and of their artifacts.  No source lies below the build
directory, nor does the way to one go there, and no artifact is in the place of a directory that is
needed on the way to another. -/
structure Layout (s : FileStore) (root directory : Path) (sources : List Path) : Prop where
  start : s.CleanStart
  clean : ∀ p ∈ sources, p.Clean
  outside : ∀ p ∈ sources, ∀ l ∈ s.trailOf p, ¬ l.Below (s.locationOf directory)
  apart : ∀ p ∈ sources, ∀ a, artifactOf? s root directory p = some a →
    ∀ q ∈ sources, ∀ key, key? s root q = some key →
      a ∉ s.trailOf (Artifact.folder key directory)

/-- The layout depends on the working directory alone. -/
theorem Layout.congr {s s' : FileStore} {root directory : Path} {sources : List Path}
    (h : Layout s root directory sources) (hwd : s'.workingDirectory = s.workingDirectory) :
    Layout s' root directory sources where
  start := by
    have hs := h.start
    unfold FileStore.CleanStart at hs ⊢
    rwa [hwd]
  clean := h.clean
  outside p hp l hl := by
    rw [FileStore.trailOf_congr hwd] at hl
    rw [FileStore.locationOf_congr hwd]
    exact h.outside p hp l hl
  apart p hp a ha q hq key hkey := by
    rw [artifactOf?_congr hwd] at ha
    rw [key?_congr hwd] at hkey
    rw [FileStore.trailOf_congr hwd]
    exact h.apart p hp a ha q hq key hkey

namespace Layout

variable {s : FileStore} {root directory : Path} {sources : List Path}

theorem artifact_below (h : Layout s root directory sources) {p : Path} (hp : p ∈ sources)
    {a : Location} (ha : artifactOf? s root directory p = some a) :
    a.Below (s.locationOf directory) := by
  obtain ⟨key, hkey, rfl⟩ := Option.map_eq_some_iff.mp ha
  exact Build.artifact_below h.start (h.clean p hp) hkey

/-- No artifact is on the way to a source. -/
theorem artifact_notMem_trail (h : Layout s root directory sources) {p q : Path}
    (hp : p ∈ sources) (hq : q ∈ sources) {a : Location}
    (ha : artifactOf? s root directory p = some a) : a ∉ s.trailOf q := fun hmem =>
  h.outside q hq a hmem (h.artifact_below hp ha)

theorem artifact_ne_source (h : Layout s root directory sources) {p q : Path}
    (hp : p ∈ sources) (hq : q ∈ sources) {a : Location}
    (ha : artifactOf? s root directory p = some a) : s.locationOf q ≠ a := by
  rintro rfl
  exact h.artifact_notMem_trail hp hq ha (s.locationOf_mem_trailOf q)

/-- Sources with the artifact in one place are in one place. -/
theorem artifact_injective (h : Layout s root directory sources) {p q : Path}
    (hp : p ∈ sources) (hq : q ∈ sources) {a : Location}
    (ha : artifactOf? s root directory p = some a)
    (ha' : artifactOf? s root directory q = some a) : s.locationOf q = s.locationOf p := by
  obtain ⟨key, hkey, rfl⟩ := Option.map_eq_some_iff.mp ha
  obtain ⟨k, hk, heq⟩ := Option.map_eq_some_iff.mp ha'
  exact Build.artifact_injective h.start (h.clean q hq) (h.clean p hp) hk hkey heq

end Layout

/-! ## The invariant -/

/-- The bytes are the artifact of a source that holds these bytes and has not too many of them. -/
def IsArtifactOf (limit : Option Int) (text bytes : List UInt8) : Prop :=
  isOver text.length limit = false ∧ ∃ chars tree, Text.ofFile text = .ok chars ∧
    Node.parse (Text.ofChars chars) = .ok tree ∧ bytes = Artifact.toFile tree

/-- Sources and artifacts agree: artifacts have their places, were written by now, and one that is
newer than its source is the artifact of what the source holds. -/
structure Consistent (settings : Settings) (directory : Path) (sources : List Path)
    (s : FileStore) : Prop where
  sound : s.Sound
  layout : Layout s settings.root directory sources
  /-- No directory is in the place of an artifact. -/
  free : ∀ p ∈ sources, ∀ a, artifactOf? s settings.root directory p = some a →
    ¬ s.isDirectoryAt a
  /-- Below the build directory no file is in the place of a directory that an artifact needs. -/
  room : ∀ p ∈ sources, ∀ key, key? s settings.root p = some key →
    ∀ l ∈ s.trailOf (Artifact.folder key directory), l.Below (s.locationOf directory) →
      s.fileAt? l = none
  /-- An artifact is not from the future. -/
  past : ∀ p ∈ sources, ∀ a, artifactOf? s settings.root directory p = some a →
    ∀ bytes t, s.fileAt? a = some (bytes, t) → t ≤ s.clock
  /-- An artifact that is newer than its source holds the tree of the source. -/
  current : ∀ p ∈ sources, ∀ a, artifactOf? s settings.root directory p = some a →
    ∀ bytes t, s.fileAt? a = some (bytes, t) →
      ∀ text u, s.fileAt? (s.locationOf p) = some (text, u) → u < t →
        IsArtifactOf settings.maxSourceBytes text bytes

namespace Consistent

variable {settings : Settings} {directory : Path} {sources : List Path} {s s' : FileStore}

/-- Directories may be made anywhere but in the place of an artifact. -/
theorem grows (h : Consistent settings directory sources s) {places : List Location}
    (hgrows : FileStore.Grows places s s') (hsound : s'.Sound)
    (hplaces : ∀ p ∈ sources, ∀ a, artifactOf? s settings.root directory p = some a →
      a ∉ places) : Consistent settings directory sources s' where
  sound := hsound
  layout := h.layout.congr hgrows.workingDirectory
  free p hp a ha hdir := by
    rw [artifactOf?_congr hgrows.workingDirectory] at ha
    exact (hgrows.made a hdir).elim (h.free p hp a ha) (hplaces p hp a ha)
  room p hp key hkey l hl hbelow := by
    rw [key?_congr hgrows.workingDirectory] at hkey
    rw [FileStore.trailOf_congr hgrows.workingDirectory] at hl
    rw [FileStore.locationOf_congr hgrows.workingDirectory] at hbelow
    rw [hgrows.files]
    exact h.room p hp key hkey l hl hbelow
  past p hp a ha bytes t hfile := by
    rw [artifactOf?_congr hgrows.workingDirectory] at ha
    rw [hgrows.files] at hfile
    rw [hgrows.clock]
    exact h.past p hp a ha bytes t hfile
  current p hp a ha bytes t hfile text u htext := by
    rw [artifactOf?_congr hgrows.workingDirectory] at ha
    rw [hgrows.files] at hfile
    rw [FileStore.locationOf_congr hgrows.workingDirectory, hgrows.files] at htext
    exact h.current p hp a ha bytes t hfile text u htext

/-- A source may be written now or removed. -/
theorem source (h : Consistent settings directory sources s) {p : Path} (hp : p ∈ sources)
    (hsame : FileStore.SameDirectories s s') (hsound : s'.Sound)
    (hfiles : ∀ l, l ≠ s.locationOf p → s'.fileAt? l = s.fileAt? l)
    (hnow : ∀ f, s'.fileAt? (s.locationOf p) = some f → f.2 = s.clock) :
    Consistent settings directory sources s' := by
  have hartifact {q a} (hq : q ∈ sources) (ha : artifactOf? s settings.root directory q = some a) :
      s'.fileAt? a = s.fileAt? a :=
    hfiles a (Ne.symm (h.layout.artifact_ne_source hq hp ha))
  refine ⟨hsound, h.layout.congr hsame.workingDirectory, ?_, ?_, ?_, ?_⟩
  · intro q hq a ha
    rw [artifactOf?_congr hsame.workingDirectory] at ha
    rw [hsame.directories]
    exact h.free q hq a ha
  · intro q hq key hkey l hl hbelow
    rw [key?_congr hsame.workingDirectory] at hkey
    rw [FileStore.trailOf_congr hsame.workingDirectory] at hl
    rw [FileStore.locationOf_congr hsame.workingDirectory] at hbelow
    have hne : l ≠ s.locationOf p := by
      rintro rfl
      exact h.layout.outside p hp _ (s.locationOf_mem_trailOf p) hbelow
    rw [hfiles l hne]
    exact h.room q hq key hkey l hl hbelow
  · intro q hq a ha bytes t hfile
    rw [artifactOf?_congr hsame.workingDirectory] at ha
    rw [hartifact hq ha] at hfile
    rw [hsame.clock]
    exact h.past q hq a ha bytes t hfile
  · intro q hq a ha bytes t hfile text u htext hnewer
    rw [artifactOf?_congr hsame.workingDirectory] at ha
    rw [hartifact hq ha] at hfile
    rw [FileStore.locationOf_congr hsame.workingDirectory] at htext
    by_cases hqp : s.locationOf q = s.locationOf p
    · -- What is written now is not older than an artifact.
      have hu : u = s.clock := hnow (text, u) (hqp ▸ htext)
      have ht := h.past q hq a ha bytes t hfile
      omega
    · rw [hfiles _ hqp] at htext
      exact h.current q hq a ha bytes t hfile text u htext hnewer

/-- The artifact of what a source holds may be written. -/
theorem artifact (h : Consistent settings directory sources s) {p : Path} (hp : p ∈ sources)
    {a : Location} (ha : artifactOf? s settings.root directory p = some a)
    (hsame : FileStore.SameDirectories s s') (hsound : s'.Sound) {text bytes : List UInt8} {u : Int}
    (htext : s.fileAt? (s.locationOf p) = some (text, u))
    (hbytes : IsArtifactOf settings.maxSourceBytes text bytes)
    (hfiles : ∀ l, s'.fileAt? l = if l = a then some (bytes, s.clock) else s.fileAt? l) :
    Consistent settings directory sources s' := by
  refine ⟨hsound, h.layout.congr hsame.workingDirectory, ?_, ?_, ?_, ?_⟩
  · intro q hq b hb
    rw [artifactOf?_congr hsame.workingDirectory] at hb
    rw [hsame.directories]
    exact h.free q hq b hb
  · intro q hq key hkey l hl hbelow
    rw [key?_congr hsame.workingDirectory] at hkey
    rw [FileStore.trailOf_congr hsame.workingDirectory] at hl
    rw [FileStore.locationOf_congr hsame.workingDirectory] at hbelow
    have hne : l ≠ a := by
      rintro rfl
      exact h.layout.apart p hp _ ha q hq key hkey hl
    rw [hfiles, if_neg hne]
    exact h.room q hq key hkey l hl hbelow
  · intro q hq b hb held t hfile
    rw [artifactOf?_congr hsame.workingDirectory] at hb
    rw [hsame.clock]
    rw [hfiles] at hfile
    split at hfile
    · simp only [Option.some.injEq, Prod.mk.injEq] at hfile
      omega
    · exact h.past q hq b hb held t hfile
  · intro q hq b hb held t hfile text' u' htext' hnewer
    rw [artifactOf?_congr hsame.workingDirectory] at hb
    rw [FileStore.locationOf_congr hsame.workingDirectory, hfiles,
      if_neg (h.layout.artifact_ne_source hp hq ha)] at htext'
    rw [hfiles] at hfile
    split at hfile
    · next hba =>
      -- The source of this artifact is in the same place.
      rw [h.layout.artifact_injective hp hq ha (hba ▸ hb), htext] at htext'
      cases htext'
      cases hfile
      exact hbytes
    · exact h.current q hq b hb held t hfile text' u' htext' hnewer

end Consistent

/-! ## Builds of one source -/

/-- A store has all directories of another, and all its files but for artifacts. -/
structure Extends (settings : Settings) (directory : Path) (sources : List Path)
    (s s' : FileStore) : Prop where
  workingDirectory : s'.workingDirectory = s.workingDirectory
  directories : ∀ l, s.isDirectoryAt l → s'.isDirectoryAt l
  files : ∀ l, (∀ p ∈ sources, artifactOf? s settings.root directory p ≠ some l) →
    s'.fileAt? l = s.fileAt? l

namespace Consistent

variable {settings : Settings} {directory : Path} {sources : List Path} {s s' : FileStore}

/-- Keeping the artifact of a source that was read. -/
theorem keep (h : Consistent settings directory sources s) {p : Path} (hp : p ∈ sources)
    {key : Text} (hkey : key? s settings.root p = some key) {chars : List Char} {m : Node}
    (hread : readSource s key p settings.maxSourceBytes = .ok chars)
    (hparse : Node.parse (Text.ofChars chars) = .ok m) :
    Consistent settings directory sources
        (Build.keep s (some (Artifact.location key directory)) m).store ∧
      Extends settings directory sources s
        (Build.keep s (some (Artifact.location key directory)) m).store := by
  have hstore : (Build.keep s (some (Artifact.location key directory)) m).store =
      (s.writeWithParents (Artifact.location key directory) (Artifact.toFile m)).store := by
    simp only [Build.keep]
    split <;> next hw => simp [hw]
  have ha := artifactOf?_of_key hkey directory
  obtain ⟨text, u, hstatus, hover, htext⟩ := readSource_ok hread
  have hfile := FileStore.fileAt?_of_status hstatus
  obtain ⟨mid, hgrows, hsound, hcases⟩ :=
    s.writeWithParents_cases (Artifact.location key directory) (Artifact.toFile m)
  rw [Artifact.location_eq_child, Path.parent_child] at hgrows
  have hmid : Consistent settings directory sources mid :=
    h.grows hgrows (hsound h.sound) fun q hq a ha => h.layout.apart q hq a ha p hp key hkey
  rw [hstore]
  rcases hcases with hstore | hwrite
  · rw [hstore]
    exact ⟨hmid, hgrows.workingDirectory, hgrows.kept, fun l _ => hgrows.files l⟩
  · obtain ⟨l, hplace, -, hsame, hfiles⟩ := FileStore.write_ok hwrite
    obtain rfl := FileStore.place_eq hplace
    rw [FileStore.locationOf_congr hgrows.workingDirectory] at hfiles
    have ha' := (artifactOf?_congr hgrows.workingDirectory settings.root directory p).trans ha
    have hfile' : mid.fileAt? (mid.locationOf p) = some (text, u) := by
      rw [FileStore.locationOf_congr hgrows.workingDirectory, hgrows.files, hfile]
    refine ⟨hmid.artifact hp ha' hsame (hmid.sound.write hwrite) hfile'
      ⟨hover, chars, m, htext, hparse, rfl⟩ hfiles,
      hsame.workingDirectory.trans hgrows.workingDirectory, fun l hl => ?_, fun l hl => ?_⟩
    · rw [hsame.directories]
      exact hgrows.kept l hl
    · have hne : l ≠ s.locationOf (Artifact.location key directory) := by
        rintro rfl
        exact hl p hp ha
      rw [hfiles, if_neg hne, hgrows.files]

theorem extends_refl (settings : Settings) (directory : Path) (sources : List Path)
    (s : FileStore) : Extends settings directory sources s s :=
  ⟨rfl, fun _ h => h, fun _ _ => rfl⟩

theorem parseSource (h : Consistent settings directory sources s) {p : Path} (hp : p ∈ sources)
    {key : Text} (hkey : key? s settings.root p = some key) :
    let run := Build.parseSource s key p settings.maxSourceBytes
      (some (Artifact.location key directory))
    Consistent settings directory sources run.store ∧
      Extends settings directory sources s run.store := by
  have hrefl := And.intro h (extends_refl settings directory sources s)
  unfold Build.parseSource
  cases hread : readSource s key p settings.maxSourceBytes with
  | error r => exact hrefl
  | ok chars =>
    dsimp only
    cases hparse : parseText key p chars with
    | error f => exact hrefl
    | ok m => exact h.keep hp hkey hread (parseText_ok hparse)

theorem sourceTree (h : Consistent settings directory sources s) {p : Path} (hp : p ∈ sources)
    {key : Text} (hkey : key? s settings.root p = some key)
    (hdirectory : settings.buildDirectory = some directory) :
    let run := Build.sourceTree s key p settings
    Consistent settings directory sources run.store ∧
      Extends settings directory sources s run.store := by
  have hrefl := And.intro h (extends_refl settings directory sources s)
  simp only [Build.sourceTree, hdirectory]
  cases kept s p (Artifact.location key directory) with
  | nothing => exact h.parseSource hp hkey
  | tree m => exact hrefl
  | failed f => exact hrefl
  | unusable f => exact h.parseSource hp hkey

/-- An artifact that a build goes by holds the tree of its source. -/
theorem kept (h : Consistent settings directory sources s) {p : Path} (hp : p ∈ sources)
    {key : Text} (hkey : key? s settings.root p = some key) {text : List UInt8} {u : Int}
    (hstatus : s.status p = .ok (.file text u)) :
    Build.kept s p (Artifact.location key directory) = .nothing ∨
      ∃ chars m, Build.kept s p (Artifact.location key directory) = .tree m ∧
        readSource s key p settings.maxSourceBytes = .ok chars ∧
          Node.parse (Text.ofChars chars) = .ok m := by
  have ha := artifactOf?_of_key hkey directory
  cases hstored : s.status (Artifact.location key directory) with
  | error f => exact .inl (by simp [Build.kept, hstored])
  | ok e =>
    cases e with
    | directory t =>
      -- No directory is in the place of an artifact.
      exfalso
      unfold FileStore.status at hstored
      split at hstored
      · cases hstored
      next l hlocate =>
      obtain rfl := FileStore.locate_eq hlocate
      refine h.free p hp _ ha (FileStore.isDirectoryAt_iff.mpr ⟨t, ?_⟩)
      split at hstored
      · next hfind => rw [hfind, Except.ok.inj hstored]
      · cases hstored
    | file bytes t =>
      by_cases hle : t ≤ u
      · exact .inl (kept_notNewer hstatus hstored hle)
      obtain ⟨hover, chars, m, htext, hparse, rfl⟩ :=
        h.current p hp _ ha bytes t (FileStore.fileAt?_of_status hstored) text u
          (FileStore.fileAt?_of_status hstatus) (by omega)
      refine .inr ⟨chars, m, ?_, ?_, hparse⟩
      · rw [kept_newer hstatus hstored (by omega), Artifact.ofFile_toFile hparse]
      · simp [readSource, hstatus, Entry.size, hover, FileStore.read_of_status hstatus, htext]

/-- A build with artifacts finds the tree of a source that is there, or fails on it, just as one
without artifacts does, if the build directory can be made. -/
theorem sourceTree_result (h : Consistent settings directory sources s) {p : Path}
    (hp : p ∈ sources) {key : Text} (hkey : key? s settings.root p = some key)
    (hdirectory : settings.buildDirectory = some directory) (hroom : s.HasRoom directory)
    {text : List UInt8} {u : Int} (hstatus : s.status p = .ok (.file text u)) :
    (Build.sourceTree s key p settings).result =
      (Build.parseSource s key p settings.maxSourceBytes none).result := by
  have ha := artifactOf?_of_key hkey directory
  -- The artifact can be written.
  have hkeep (m : Node) :
      (Build.keep s (some (Artifact.location key directory)) m).result = .ok m := by
    have hfiles : ∀ l ∈ s.trailOf (Artifact.folder key directory), s.fileAt? l = none := by
      intro l hl
      rcases mem_trailOf_folder h.layout.start (h.layout.clean p hp) hkey hl with htrail | hbelow
      · exact hroom l htrail
      · exact h.room p hp key hkey l hl hbelow
    obtain ⟨s', hs'⟩ := h.sound.writeWithParents (Artifact.toFile m)
      (Artifact.fileName_ne_parent key) hfiles (h.free p hp _ ha)
      (h.layout.apart p hp _ ha p hp key hkey)
    rw [← Artifact.location_eq_child] at hs'
    simp [Build.keep, hs']
  have hparse :
      (Build.parseSource s key p settings.maxSourceBytes
        (some (Artifact.location key directory))).result =
      (Build.parseSource s key p settings.maxSourceBytes none).result := by
    unfold Build.parseSource
    split
    · rfl
    · dsimp only
      split
      · rfl
      · next m _ => exact hkeep m
  simp only [Build.sourceTree, hdirectory]
  rcases h.kept hp hkey hstatus with hkept | ⟨chars, m, hkept, hread, hm⟩
  · rw [hkept]
    exact hparse
  · rw [hkept]
    simp [Build.parseSource, hread, parseText, hm, Build.keep]

/-- Sources that are there stay as they are while artifacts are written. -/
theorem status_eq (h : Consistent settings directory sources s)
    (hext : Extends settings directory sources s s') {p : Path} (hp : p ∈ sources)
    (hfile : s.isFile p) : s'.status p = s.status p := by
  obtain ⟨text, u, hstatus⟩ := FileStore.isFile_iff.mp hfile
  obtain ⟨l, hlocate, htext⟩ := FileStore.status_eq_file.mp hstatus
  have htext' : s'.fileAt? l = some (text, u) := by
    rw [hext.files, htext]
    rintro q hq hl
    rw [FileStore.locate_eq hlocate] at hl
    exact h.layout.artifact_ne_source hq hp hl rfl
  rw [hstatus]
  refine FileStore.status_eq_file.mpr ⟨l, ?_, htext'⟩
  exact FileStore.locate_of_directories hext.workingDirectory hext.directories hlocate
    (FileStore.isSome_find?.mpr (.inl (by simp [htext'])))

/-- What is written in a build does not get into the way of the build directory. -/
theorem hasRoom (h : Consistent settings directory sources s)
    (hext : Extends settings directory sources s s') (hroom : s.HasRoom directory) {p : Path}
    (hp : p ∈ sources) {key : Text} (hkey : key? s settings.root p = some key) :
    s'.HasRoom directory := by
  intro l hl
  rw [FileStore.trailOf_congr hext.workingDirectory] at hl
  rw [hext.files l, hroom l hl]
  exact fun q hq ha => h.layout.apart q hq l ha p hp key hkey (trailOf_directory_subset s _ _ hl)

end Consistent

end ManifestTree.Build
