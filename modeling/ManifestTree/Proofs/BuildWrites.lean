import ManifestTree.Proofs.ArtifactConsistency
import ManifestTree.Proofs.ShieldedSources

/-!
# What a build writes

A build passes its sources one after another.  It passes a source by its artifact, which it leaves
as it is, or by the text of the source, and then it writes the artifact.  So no file changes but the
artifacts that are written, and these hold the trees of their sources to the end.  A source that is
rejected has an artifact that nothing has written.
-/

namespace ManifestTree

/-! ## Files that are written -/

namespace FileStore

variable {s s' : FileStore} {p : Path} {n : FileName} {bytes bytes' : List UInt8} {t t' : Int}

/-- A path leads to a file as long as one is in its place and no directory on the way is gone. -/
theorem status_of_kept (hwd : s'.workingDirectory = s.workingDirectory)
    (hdir : ∀ l, s.isDirectoryAt l → s'.isDirectoryAt l) (h : s.status p = .ok (.file bytes t))
    (hfile : s'.fileAt? (s.locationOf p) = some (bytes', t')) :
    s'.status p = .ok (.file bytes' t') := by
  obtain ⟨l, hlocate, -⟩ := status_eq_file.mp h
  obtain rfl := locate_eq hlocate
  have hsome : (s'.find? (s.locationOf p)).isSome := isSome_find?.mpr (.inl (by simp [hfile]))
  exact status_eq_file.mpr ⟨_, locate_of_directories hwd hdir hlocate hsome, hfile⟩

/-- A path that leads somewhere leads to the file in its place. -/
theorem eq_file_of_status {e : Entry} (h : s.status p = .ok e)
    (hfile : s.fileAt? (s.locationOf p) = some (bytes, t)) : e = .file bytes t := by
  unfold status at h
  split at h
  · cases h
  next l hlocate =>
  obtain rfl := locate_eq hlocate
  rw [fileAt?_eq_some.mp hfile] at h
  cases h
  rfl

/-- The path by which a file was written leads to it. -/
theorem status_of_write (hn : n ≠ FileName.parent) (h : s.write (p.child n) bytes = .ok s') :
    s'.status (p.child n) = .ok (.file bytes s.clock) := by
  obtain ⟨l, hplace, -, hsame, hfiles⟩ := write_ok h
  obtain ⟨d, hd, hdir, rfl⟩ : ∃ d, s.locate p = .ok d ∧ s.isDirectoryAt d ∧ l = d ++ [n] := by
    unfold place at hplace
    rw [show (p.child n).names.getLast? = some n by simp [Path.child], Path.parent_child] at hplace
    dsimp only at hplace
    split at hplace
    · cases hplace
    next d hd =>
    split at hplace
    · cases hplace
    next hdir =>
    cases hplace
    exact ⟨d, hd, by simpa using hdir, rfl⟩
  exact status_of_written hd hdir hn hsame (by rw [hfiles, if_pos rfl])

/-- A file is written once the directories above it are there. -/
theorem write_of_writeWithParents (h : s.writeWithParents p bytes = ⟨s', none⟩) :
    ∃ mid, Grows (s.trailOf p.parent) s mid ∧ mid.write p bytes = .ok s' := by
  have hgrows := (s.makeDirectories_grows p.parent).1
  unfold writeWithParents at h
  split at h
  · next mid hmid =>
    rw [hmid] at hgrows
    refine ⟨mid, hgrows, ?_⟩
    split at h
    · next hwrite =>
      cases h
      exact hwrite
    · cases h
  · next hfailed => exact absurd h (hfailed s')

end FileStore

namespace Build

/-! ## Passing one source -/

/-- The artifact can take the place of the source: it is newer, and it holds a tree. -/
def Usable (s : FileStore) (artifact source : Path) : Prop :=
  ∃ current bytes t m, s.status source = .ok current ∧ s.status artifact = .ok (.file bytes t) ∧
    current.modified < t ∧ Artifact.ofFile bytes = .ok m

/-- The artifact is written for what the source holds, and no other file is changed. -/
structure Writes (limit : Option Int) (artifact source : Path) (bytes : List UInt8)
    (s s' : FileStore) : Prop where
  source : ∃ text u, s.status source = .ok (.file text u) ∧ IsArtifactOf limit text bytes
  status : s'.status artifact = .ok (.file bytes s.clock)
  files : ∀ l, s'.fileAt? l =
    if l = s.locationOf artifact then some (bytes, s.clock) else s.fileAt? l
  directories : ∀ l, s.isDirectoryAt l → s'.isDirectoryAt l
  workingDirectory : s'.workingDirectory = s.workingDirectory

/-- The build gets the tree of a source, from its artifact or from its text. -/
inductive Passed (settings : Settings) (directory : Path) (s : FileStore) (p : Path) :
    FileStore → Prop
  | reuses {key : Text} (named : key? s settings.root p = some key)
    (usable : Usable s (Artifact.location key directory) p) : Passed settings directory s p s
  | writes {key : Text} {bytes : List UInt8} {s' : FileStore}
    (named : key? s settings.root p = some key)
    (unusable : ¬ Usable s (Artifact.location key directory) p)
    (written : Writes settings.maxSourceBytes (Artifact.location key directory) p bytes s s') :
    Passed settings directory s p s'

section

variable {s : FileStore} {settings : Settings} {directory artifact p q : Path} {key : Text}
  {limit : Option Int} {m m' : Node} {r : Rejection}

theorem usable_iff_kept : Usable s artifact p ↔ ∃ m, kept s p artifact = .tree m := by
  constructor
  · rintro ⟨current, bytes, t, m, hsource, hartifact, hnewer, hm⟩
    have hle : ¬ (Entry.file bytes t).modified ≤ current.modified := Int.not_le.mpr hnewer
    exact ⟨m, by simp [kept, hsource, hartifact, hle, FileStore.read_of_status hartifact, hm]⟩
  · rintro ⟨m, hm⟩
    obtain ⟨current, bytes, t, hsource, hartifact, hnewer, hfile⟩ := kept_tree hm
    exact ⟨current, bytes, t, m, hsource, hartifact, hnewer, hfile⟩

/-- Keeping the tree of a source that was read writes its artifact. -/
theorem keep_writes {chars : List Char} (hread : readSource s key p limit = .ok chars)
    (hparse : Node.parse (Text.ofChars chars) = .ok m)
    (h : (keep s (some (Artifact.location key directory)) m).result = .ok m') :
    Writes limit (Artifact.location key directory) p (Artifact.toFile m) s
      (keep s (some (Artifact.location key directory)) m).store := by
  obtain ⟨text, u, hstatus, hover, htext⟩ := readSource_ok hread
  obtain ⟨s', hwritten, hstore⟩ : ∃ s', s.writeWithParents (Artifact.location key directory)
      (Artifact.toFile m) = ⟨s', none⟩ ∧
        (keep s (some (Artifact.location key directory)) m).store = s' := by
    unfold keep at h ⊢
    dsimp only at h ⊢
    split at h
    · next hw => exact ⟨_, hw, rfl⟩
    · cases h
  obtain ⟨mid, hgrows, hwrite⟩ := FileStore.write_of_writeWithParents hwritten
  obtain ⟨l, hplace, -, hsame, hfiles⟩ := FileStore.write_ok hwrite
  obtain rfl := FileStore.place_eq hplace
  have hstored := FileStore.status_of_write (p := Artifact.folder key directory)
    (Artifact.fileName_ne_parent key) hwrite
  rw [FileStore.locationOf_congr hgrows.workingDirectory, hgrows.clock] at hfiles
  rw [hgrows.clock] at hstored
  rw [hstore]
  refine ⟨⟨text, u, hstatus, hover, chars, m, htext, hparse, rfl⟩, hstored, fun l => ?_,
    fun l hl => ?_, hsame.workingDirectory.trans hgrows.workingDirectory⟩
  · rw [hfiles, hgrows.files]
  · rw [hsame.directories]
    exact hgrows.kept l hl

/-- A source that is parsed has its artifact written, or nothing changes if it is rejected. -/
theorem parseSource_cases :
    let run := parseSource s key p limit (some (Artifact.location key directory))
    (∀ m, run.result = .ok m → ∃ bytes,
        Writes limit (Artifact.location key directory) p bytes s run.store) ∧
      ∀ q r, run.result = .error (.rejected q r) → q = p ∧ run.store = s := by
  unfold parseSource
  cases hread : readSource s key p limit with
  | error r =>
    refine ⟨nofun, fun q r' h => ?_⟩
    cases h
    exact ⟨rfl, rfl⟩
  | ok chars =>
    dsimp only
    cases hparse : parseText key p chars with
    | error f =>
      refine ⟨nofun, fun q r' h => ⟨?_, rfl⟩⟩
      cases h
      unfold parseText at hparse
      split at hparse
      · cases hparse
      · cases hparse
        rfl
      · next hf => cases hparse
    | ok m =>
      refine ⟨fun m' h => ⟨_, keep_writes hread (parseText_ok hparse) h⟩, fun q r h => ?_⟩
      dsimp only at h
      unfold keep at h
      dsimp only at h
      split at h <;> cases h

theorem sourceTree_passed (hdirectory : settings.buildDirectory = some directory)
    (hkey : key? s settings.root p = some key)
    (h : (sourceTree s key p settings).result = .ok m) :
    Passed settings directory s p (sourceTree s key p settings).store := by
  unfold sourceTree at h ⊢
  simp only [hdirectory] at h ⊢
  have hnot (hkept : ∀ m, kept s p (Artifact.location key directory) ≠ .tree m) :
      ¬ Usable s (Artifact.location key directory) p := fun husable =>
    let ⟨m, hm⟩ := usable_iff_kept.mp husable
    hkept m hm
  cases hkept : kept s p (Artifact.location key directory) with
  | nothing =>
    rw [hkept] at h
    obtain ⟨bytes, hwrites⟩ := parseSource_cases.1 m h
    exact .writes hkey (hnot fun m => by rw [hkept]; nofun) hwrites
  | tree m' => exact .reuses hkey (usable_iff_kept.mpr ⟨m', hkept⟩)
  | failed f =>
    rw [hkept] at h
    cases h
  | unusable f =>
    rw [hkept] at h
    obtain ⟨bytes, hwrites⟩ := parseSource_cases.1 m h
    exact .writes hkey (hnot fun m => by rw [hkept]; nofun) hwrites

theorem sourceTree_rejected (hdirectory : settings.buildDirectory = some directory)
    (h : (sourceTree s key p settings).result = .error (.rejected q r)) :
    q = p ∧ (sourceTree s key p settings).store = s := by
  unfold sourceTree at h ⊢
  simp only [hdirectory] at h ⊢
  cases hkept : kept s p (Artifact.location key directory) with
  | nothing =>
    rw [hkept] at h
    exact parseSource_cases.2 q r h
  | tree m =>
    rw [hkept] at h
    cases h
  | failed f =>
    rw [hkept] at h
    cases h
    exact absurd rfl (kept_failed hkept)
  | unusable f =>
    rw [hkept] at h
    exact parseSource_cases.2 q r h

end

/-! ## Places of sources and artifacts -/

/-- The sources of a build, none of which is in the place of an artifact of one. -/
structure Separate (s : FileStore) (root directory : Path) (sources : List Path) : Prop where
  start : s.CleanStart
  clean : ∀ p ∈ sources, p.Clean
  apart : ∀ p ∈ sources, ∀ q ∈ sources, artifactOf? s root directory q ≠ some (s.locationOf p)

section

variable {s s' : FileStore} {settings : Settings} {root directory p q : Path} {key k : Text}
  {sources : List Path}

theorem Separate.congr (h : Separate s root directory sources)
    (hwd : s'.workingDirectory = s.workingDirectory) : Separate s' root directory sources where
  start := by
    have hs := h.start
    unfold FileStore.CleanStart at hs ⊢
    rwa [hwd]
  clean := h.clean
  apart p hp q hq := by
    rw [artifactOf?_congr hwd, FileStore.locationOf_congr hwd]
    exact h.apart p hp q hq

/-- The key of a source depends on its place. -/
theorem key?_of_location (hs : s.CleanStart) (h : s.locationOf p = s.locationOf q) (root : Path) :
    key? s root p = key? s root q := by
  have hresolve (p : Path) : s.resolve p = ⟨.root, s.locationOf p⟩ := by
    rw [← FileStore.resolve_names hs]
    rfl
  rw [key?, key?, hresolve p, hresolve q, h]

/-- Sources with the artifact in one place are in one place and have one key. -/
theorem Separate.injective (h : Separate s root directory sources) (hp : p ∈ sources)
    (hq : q ∈ sources) (hkey : key? s root p = some key) (hk : key? s root q = some k)
    (heq : s.locationOf (Artifact.location key directory) =
      s.locationOf (Artifact.location k directory)) :
    s.locationOf p = s.locationOf q ∧ key = k := by
  have hlocation := artifact_injective h.start (h.clean p hp) (h.clean q hq) hkey hk heq
  rw [key?_of_location h.start hlocation, hk] at hkey
  exact ⟨hlocation, (Option.some.inj hkey).symm⟩

theorem Passed.workingDirectory (h : Passed settings directory s p s') :
    s'.workingDirectory = s.workingDirectory := by
  cases h with
  | reuses => rfl
  | writes _ _ hwritten => exact hwritten.workingDirectory

theorem Passed.source (h : Passed settings directory s p s')
    (hs : Separate s settings.root directory sources) (hp : p ∈ sources) (hq : q ∈ sources) :
    s'.fileAt? (s.locationOf q) = s.fileAt? (s.locationOf q) := by
  cases h with
  | reuses => rfl
  | writes hkey _ hwritten =>
    rw [hwritten.files, if_neg]
    intro hplace
    exact hs.apart q hq p hp (hplace ▸ artifactOf?_of_key hkey directory)

end

/-! ## Artifacts that hold the tree of their source -/

/-- The artifact of the source in a place holds the tree of what the source holds. -/
structure Holds (limit : Option Int) (artifact : Path) (place : Location) (bytes : List UInt8)
    (s : FileStore) : Prop where
  source : ∃ text u, s.fileAt? place = some (text, u) ∧ IsArtifactOf limit text bytes
  status : ∃ t, s.status artifact = .ok (.file bytes t)

/-- What a source holds has one artifact. -/
theorem IsArtifactOf.unique {limit : Option Int} {text bytes bytes' : List UInt8}
    (h : IsArtifactOf limit text bytes) (h' : IsArtifactOf limit text bytes') : bytes = bytes' := by
  obtain ⟨-, chars, tree, hchars, htree, rfl⟩ := h
  obtain ⟨-, chars', tree', hchars', htree', rfl⟩ := h'
  rw [hchars] at hchars'
  cases hchars'
  rw [htree] at htree'
  cases htree'
  rfl

section

variable {s s' : FileStore} {settings : Settings} {root directory artifact p q : Path}
  {key k : Text} {sources : List Path} {limit : Option Int} {bytes : List UInt8} {r : Rejection}

/-- An artifact that was written holds the tree of its source. -/
theorem Writes.holds (h : Writes limit artifact p bytes s s')
    (hne : s.locationOf p ≠ s.locationOf artifact) :
    Holds limit artifact (s.locationOf p) bytes s' := by
  obtain ⟨text, u, hstatus, hbytes⟩ := h.source
  refine ⟨⟨text, u, ?_, hbytes⟩, s.clock, h.status⟩
  rw [h.files, if_neg hne]
  exact FileStore.fileAt?_of_status hstatus

/-- It still does when another source is passed. -/
theorem Holds.passed
    (h : Holds settings.maxSourceBytes (Artifact.location key directory) (s.locationOf p) bytes s)
    (hs : Separate s settings.root directory sources) (hp : p ∈ sources)
    (hkey : key? s settings.root p = some key) (hq : q ∈ sources)
    (hpassed : Passed settings directory s q s') :
    Holds settings.maxSourceBytes (Artifact.location key directory) (s.locationOf p) bytes s' := by
  obtain ⟨⟨text, u, htext, hbytes⟩, t, hstatus⟩ := h
  refine ⟨⟨text, u, (hpassed.source hs hq hp).trans htext, hbytes⟩, ?_⟩
  cases hpassed with
  | reuses => exact ⟨t, hstatus⟩
  | @writes k bytes' _ hk _ hwritten =>
    by_cases hplace : s.locationOf (Artifact.location key directory) =
        s.locationOf (Artifact.location k directory)
    · -- The artifact is written again, for the same source.
      obtain ⟨hlocation, rfl⟩ := hs.injective hp hq hkey hk hplace
      obtain ⟨text', u', hstatus', hbytes'⟩ := hwritten.source
      have htext' := FileStore.fileAt?_of_status hstatus'
      rw [← hlocation, htext] at htext'
      cases htext'
      rw [hbytes.unique hbytes']
      exact ⟨s.clock, hwritten.status⟩
    · refine ⟨t, FileStore.status_of_kept hwritten.workingDirectory hwritten.directories hstatus ?_⟩
      rw [hwritten.files, if_neg hplace]
      exact FileStore.fileAt?_of_status hstatus

/-- A source whose artifact holds its tree is not rejected. -/
theorem Holds.not_rejected (hdirectory : settings.buildDirectory = some directory)
    (h : Holds settings.maxSourceBytes (Artifact.location key directory) (s.locationOf p) bytes s) :
    (sourceTree s key p settings).result ≠ .error (.rejected q r) := by
  obtain ⟨⟨text, u, htext, hover, chars, tree, hchars, htree, rfl⟩, t, hstatus⟩ := h
  unfold sourceTree
  simp only [hdirectory]
  cases hsource : s.status p with
  | error e =>
    have hcontains : s.contains (Artifact.location key directory) := by
      simp [FileStore.contains, hstatus, Except.toOption]
    rw [kept_of_missing hsource hcontains]
    simp
  | ok current =>
    obtain rfl := FileStore.eq_file_of_status hsource htext
    by_cases hnewer : u < t
    · rw [kept_newer hsource hstatus hnewer, Artifact.ofFile_toFile htree]
      simp
    · rw [kept_notNewer hsource hstatus (Int.not_lt.mp hnewer)]
      have hread : readSource s key p settings.maxSourceBytes = .ok chars := by
        simp [readSource, hsource, Entry.size, hover, FileStore.read_of_status hsource, hchars]
      have hparse : parseText key p chars = .ok tree := by
        simp [parseText, htree]
      simp only [parseSource, hread, hparse, keep]
      split <;> simp

end

/-! ## Passing all sources -/

/-- A run ends with an answer, or because a source is rejected. -/
def Run.Concludes {α : Type} (run : Run α) : Prop :=
  ∀ f, run.result = .error f → ∃ p r, f = .rejected p r

/-- In a build of the sources there is the store `t` when the build comes to a source that it gets
the tree of. -/
inductive Passes (settings : Settings) : FileStore → List Path → FileStore → Path → Prop
  | here {s : FileStore} {p : Path} {ps : List Path} {key : Text} {m : Node}
    (named : key? s settings.root p = some key)
    (passed : (sourceTree s key p settings).result = .ok m) : Passes settings s (p :: ps) s p
  | later {s t : FileStore} {p q : Path} {ps : List Path} {key : Text} {m : Node}
    (named : key? s settings.root p = some key)
    (passed : (sourceTree s key p settings).result = .ok m)
    (rest : Passes settings (sourceTree s key p settings).store ps t q) :
    Passes settings s (p :: ps) t q

section

variable {s t : FileStore} {settings : Settings} {directory p q : Path} {key : Text} {m : Node}
  {asked : List Path} {trees : Trees} {r : Rejection} {P : FileStore → Prop}

/-- A source that is passed leaves the rest of the build. -/
theorem addTrees_of_passed (asked : List Path) (trees : Trees)
    (hkey : key? s settings.root p = some key) (hm : (sourceTree s key p settings).result = .ok m) :
    let rest := addTrees settings (sourceTree s key p settings).store (trees.set key m) asked
    (addTrees settings s trees (p :: asked)).store = rest.store ∧
      (addTrees settings s trees (p :: asked)).result = rest.result := by
  rw [addTrees, hkey]
  dsimp only
  generalize sourceTree s key p settings = run at *
  obtain ⟨s', notices, result⟩ := run
  cases hm
  exact ⟨rfl, rfl⟩

/-- A build that comes to a source passes it, or rejects it with nothing changed. -/
theorem addTrees_cases (hdirectory : settings.buildDirectory = some directory)
    (h : (addTrees settings s trees (p :: asked)).Concludes) :
    (∃ key m, key? s settings.root p = some key ∧ (sourceTree s key p settings).result = .ok m) ∨
      ∃ r, (addTrees settings s trees (p :: asked)).result = .error (.rejected p r) ∧
        (addTrees settings s trees (p :: asked)).store = s ∧
        ∀ key, key? s settings.root p = some key →
          (sourceTree s key p settings).result = .error (.rejected p r) := by
  unfold Run.Concludes at h
  rw [addTrees] at h ⊢
  cases hkey : key? s settings.root p with
  | none =>
    refine .inr ⟨_, rfl, rfl, fun key hsome => ?_⟩
    cases hsome
  | some key =>
    rw [hkey] at h
    dsimp only at h ⊢
    cases hresult : (sourceTree s key p settings).result with
    | ok m => exact .inl ⟨key, m, rfl, hresult⟩
    | error f =>
      have hstep : sourceTree s key p settings =
          ⟨(sourceTree s key p settings).store, (sourceTree s key p settings).notices,
            .error f⟩ := by
        rw [← hresult]
      rw [hstep] at h ⊢
      obtain ⟨q, r, rfl⟩ := h f rfl
      obtain ⟨rfl, hstore⟩ := sourceTree_rejected hdirectory hresult
      refine .inr ⟨r, rfl, hstore, ?_⟩
      rintro _ ⟨⟩
      exact hresult

/-- What passing a source keeps, a build keeps, whether or not it rejects a source in the end. -/
theorem addTrees_keeps (hdirectory : settings.buildDirectory = some directory)
    (hstep : ∀ s p s', p ∈ asked → Passed settings directory s p s' → P s → P s') (hs : P s)
    (h : (addTrees settings s trees asked).Concludes) :
    P (addTrees settings s trees asked).store ∧
      ∀ p r, (addTrees settings s trees asked).result = .error (.rejected p r) → p ∈ asked ∧
        ∃ t, P t ∧ ∀ key, key? t settings.root p = some key →
          (sourceTree t key p settings).result = .error (.rejected p r) := by
  induction asked generalizing s trees with
  | nil =>
    refine ⟨hs, fun p r hr => ?_⟩
    simp only [addTrees, reduceCtorEq] at hr
  | cons q asked ih =>
    rcases addTrees_cases hdirectory h with ⟨key, m, hkey, hm⟩ | ⟨r, hresult, hstore, hrejected⟩
    · obtain ⟨hstore, hresult⟩ := addTrees_of_passed asked trees hkey hm
      have hpassed := sourceTree_passed hdirectory hkey hm
      unfold Run.Concludes at h
      rw [hresult] at h
      rw [hstore, hresult]
      obtain ⟨hfinal, hrest⟩ := ih (fun s p s' hp => hstep s p s' (List.mem_cons_of_mem _ hp))
        (hstep _ _ _ List.mem_cons_self hpassed hs) h
      exact ⟨hfinal, fun p r hr => (hrest p r hr).imp_left (List.mem_cons_of_mem _)⟩
    · rw [hstore]
      refine ⟨hs, fun p r' hr => ?_⟩
      rw [hresult] at hr
      cases hr
      exact ⟨List.mem_cons_self, s, hs, hrejected⟩

/-- What passing a source keeps is there when the build comes to a source that it passes. -/
theorem Passes.keeps (hdirectory : settings.buildDirectory = some directory)
    (hstep : ∀ s p s', p ∈ asked → Passed settings directory s p s' → P s → P s') (hs : P s)
    (h : Passes settings s asked t q) : P t := by
  induction h with
  | here => exact hs
  | later hkey hm _ ih =>
    refine ih (fun s p s' hp => hstep s p s' (List.mem_cons_of_mem _ hp)) ?_
    exact hstep _ _ _ List.mem_cons_self (sourceTree_passed hdirectory hkey hm) hs

theorem Passes.passed (hdirectory : settings.buildDirectory = some directory)
    (h : Passes settings s asked t q) : q ∈ asked ∧ ∃ t', Passed settings directory t q t' := by
  induction h with
  | here hkey hm => exact ⟨List.mem_cons_self, _, sourceTree_passed hdirectory hkey hm⟩
  | later _ _ _ ih => exact ih.imp_left (List.mem_cons_of_mem _)

end

/-! ## What is written -/

/-- The build comes to the source with a key, which it gets the tree of, and finds no artifact that
could take its place. -/
def Fresh (s : FileStore) (settings : Settings) (directory : Path) (sources : List Path)
    (key : Text) : Prop :=
  ∃ t p, Passes settings s sources t p ∧ key? s settings.root p = some key ∧
    ¬ Usable t (Artifact.location key directory) p

/-- What a build with artifacts may do to files. -/
structure WritesArtifacts (s : FileStore) (settings : Settings) (directory : Path)
    (sources : List Path) : Prop where
  /-- Sources with different keys have their artifacts in different places. -/
  distinct : ∀ p ∈ sources, ∀ q ∈ sources, ∀ key k, key? s settings.root p = some key →
    key? s settings.root q = some k → key ≠ k →
      s.locationOf (Artifact.location key directory) ≠ s.locationOf (Artifact.location k directory)
  /-- No file is changed but the artifacts of sources that the build passes and that have none. -/
  others : ∀ l, (∀ key, Fresh s settings directory sources key →
    s.locationOf (Artifact.location key directory) ≠ l) →
      (s.build settings sources).store.fileAt? l = s.fileAt? l
  /-- Such an artifact then holds the tree of what the source holds. -/
  written : ∀ t p key, Passes settings s sources t p → key? s settings.root p = some key →
    ¬ Usable t (Artifact.location key directory) p →
      ∃ text u chars tree time,
        (s.build settings sources).store.fileAt? (s.locationOf p) = some (text, u) ∧
        Text.ofFile text = .ok chars ∧ Node.parse (Text.ofChars chars) = .ok tree ∧
        (s.build settings sources).store.fileAt? (s.locationOf (Artifact.location key directory)) =
          some (Artifact.toFile tree, time)
  /-- An artifact that could take the place of its source at the start still can when the build
  comes to the source. -/
  usable : ∀ t p key, Passes settings s sources t p → key? s settings.root p = some key →
    Usable s (Artifact.location key directory) p → Usable t (Artifact.location key directory) p
  /-- The artifact of the source that is rejected is left as it was. -/
  rejected : ∀ p r key, (s.build settings sources).result = .error (.rejected p r) →
    key? s settings.root p = some key →
      (s.build settings sources).store.fileAt? (s.locationOf (Artifact.location key directory)) =
        s.fileAt? (s.locationOf (Artifact.location key directory))

section

variable {s t : FileStore} {settings : Settings} {directory p q : Path} {key k : Text}
  {sources asked : List Path} {trees : Trees} {r : Rejection}

/-- No file is changed but the artifacts that are written. -/
theorem addTrees_others (hdirectory : settings.buildDirectory = some directory) {l : Location}
    (hl : ∀ key, Fresh s settings directory asked key →
      s.locationOf (Artifact.location key directory) ≠ l)
    (h : (addTrees settings s trees asked).Concludes) :
    (addTrees settings s trees asked).store.fileAt? l = s.fileAt? l := by
  induction asked generalizing s trees with
  | nil => rfl
  | cons p asked ih =>
    rcases addTrees_cases hdirectory h with ⟨key, m, hkey, hm⟩ | ⟨r, -, hstore, -⟩
    · obtain ⟨hstore, hresult⟩ := addTrees_of_passed asked trees hkey hm
      have hpassed := sourceTree_passed hdirectory hkey hm
      have hwd := hpassed.workingDirectory
      have hstep : (sourceTree s key p settings).store.fileAt? l = s.fileAt? l := by
        generalize hnext : (sourceTree s key p settings).store = s' at hpassed
        cases hpassed with
        | reuses => rfl
        | writes hk hunusable hwritten =>
          rw [hwritten.files, if_neg]
          exact fun hplace => hl _ ⟨s, p, .here hkey hm, hk, hunusable⟩ hplace.symm
      unfold Run.Concludes at h
      rw [hresult] at h
      rw [hstore, ih ?_ h, hstep]
      rintro k ⟨t, q, hpasses, hk, hunusable⟩
      rw [FileStore.locationOf_congr hwd]
      rw [key?_congr hwd] at hk
      exact hl k ⟨t, q, .later hkey hm hpasses, hk, hunusable⟩
    · rw [hstore]

/-- An artifact that holds the tree of its source does so to the end of the build, and the source is
not rejected. -/
theorem Holds.addTrees {bytes : List UInt8} (hdirectory : settings.buildDirectory = some directory)
    (hs : Separate s settings.root directory sources) (hq : q ∈ sources)
    (hkey : key? s settings.root q = some key) (hasked : ∀ p ∈ asked, p ∈ sources)
    (h : Holds settings.maxSourceBytes (Artifact.location key directory) (s.locationOf q) bytes s)
    (hconcludes : (addTrees settings s trees asked).Concludes) :
    Holds settings.maxSourceBytes (Artifact.location key directory) (s.locationOf q) bytes
        (addTrees settings s trees asked).store ∧
      ∀ p r k, (addTrees settings s trees asked).result = .error (.rejected p r) →
        key? s settings.root p = some k →
        s.locationOf (Artifact.location key directory) ≠
          s.locationOf (Artifact.location k directory) := by
  let P (s' : FileStore) : Prop := s'.workingDirectory = s.workingDirectory ∧
    Holds settings.maxSourceBytes (Artifact.location key directory) (s.locationOf q) bytes s'
  have hstep (s₁ : FileStore) (p : Path) (s₂ : FileStore) (hp : p ∈ asked)
      (hpassed : Passed settings directory s₁ p s₂) (hP : P s₁) : P s₂ := by
    obtain ⟨hwd, hholds⟩ := hP
    refine ⟨hpassed.workingDirectory.trans hwd, ?_⟩
    rw [← FileStore.locationOf_congr hwd] at hholds ⊢
    rw [← key?_congr hwd] at hkey
    exact hholds.passed (hs.congr hwd) hq hkey (hasked p hp) hpassed
  obtain ⟨⟨-, hfinal⟩, hrejected⟩ := addTrees_keeps hdirectory hstep ⟨rfl, h⟩ hconcludes
  refine ⟨hfinal, fun p r k hr hk hplace => ?_⟩
  obtain ⟨hp, t, ⟨hwd, hholds⟩, hresult⟩ := hrejected p r hr
  obtain ⟨hlocation, rfl⟩ := hs.injective hq (hasked p hp) hkey hk hplace
  rw [hlocation, ← FileStore.locationOf_congr hwd] at hholds
  exact hholds.not_rejected hdirectory (hresult key ((key?_congr hwd _ _).trans hk))

/-- An artifact that is written holds the tree of its source when the build is over, and it is not
that of a source that is rejected. -/
theorem Passes.written (hdirectory : settings.buildDirectory = some directory)
    (hs : Separate s settings.root directory sources) (hasked : ∀ p ∈ asked, p ∈ sources)
    (hpasses : Passes settings s asked t q) (hkey : key? s settings.root q = some key)
    (hunusable : ¬ Usable t (Artifact.location key directory) q)
    (h : (addTrees settings s trees asked).Concludes) :
    (∃ bytes, Holds settings.maxSourceBytes (Artifact.location key directory) (s.locationOf q) bytes
        (addTrees settings s trees asked).store) ∧
      ∀ p r k, (addTrees settings s trees asked).result = .error (.rejected p r) →
        key? s settings.root p = some k →
        s.locationOf (Artifact.location key directory) ≠
          s.locationOf (Artifact.location k directory) := by
  unfold Run.Concludes at h
  induction hpasses generalizing trees with
  | @here s p ps _ m hk hm =>
    obtain ⟨hstore, hresult⟩ := addTrees_of_passed ps trees hk hm
    obtain rfl := Option.some.inj (hkey.symm.trans hk)
    have hpassed := sourceTree_passed hdirectory hkey hm
    have hwd := hpassed.workingDirectory
    obtain ⟨hp, hps⟩ := List.forall_mem_cons.mp hasked
    rw [hstore]
    rw [hresult] at h ⊢
    generalize (sourceTree s key p settings).store = s' at *
    obtain ⟨bytes, hholds⟩ : ∃ bytes, Holds settings.maxSourceBytes
        (Artifact.location key directory) (s'.locationOf p) bytes s' := by
      rw [FileStore.locationOf_congr hwd]
      cases hpassed with
      | reuses hk husable =>
        obtain rfl := Option.some.inj (hkey.symm.trans hk)
        exact absurd husable hunusable
      | writes hk _ hwritten =>
        obtain rfl := Option.some.inj (hkey.symm.trans hk)
        refine ⟨_, hwritten.holds fun hplace => ?_⟩
        exact hs.apart p hp p hp (hplace ▸ artifactOf?_of_key hkey directory)
    have hend :=
      hholds.addTrees hdirectory (hs.congr hwd) hp ((key?_congr hwd _ _).trans hkey) hps h
    simp only [FileStore.locationOf_congr hwd, key?_congr hwd] at hend
    exact ⟨⟨bytes, hend.1⟩, hend.2⟩
  | @later s t p q ps _ m hk hm _ ih =>
    obtain ⟨hstore, hresult⟩ := addTrees_of_passed ps trees hk hm
    have hwd := (sourceTree_passed hdirectory hk hm).workingDirectory
    rw [hstore]
    rw [hresult] at h ⊢
    have hend := ih (hs.congr hwd) (List.forall_mem_cons.mp hasked).2
      ((key?_congr hwd _ _).trans hkey) hunusable h
    simpa only [FileStore.locationOf_congr hwd, key?_congr hwd] using hend

/-- A source and an artifact that can take its place stay as they are when a source is passed. -/
theorem Passed.keepsUsable {text bytes : List UInt8} {u time : Int} {m : Node}
    (hpassed : Passed settings directory s p t) (hs : Separate s settings.root directory sources)
    (hp : p ∈ sources) (hq : q ∈ sources) (hkey : key? s settings.root q = some key)
    (hsource : s.status q = .ok (.file text u))
    (hartifact : s.status (Artifact.location key directory) = .ok (.file bytes time))
    (hnewer : u < time) (hm : Artifact.ofFile bytes = .ok m) :
    t.status q = .ok (.file text u) ∧
      t.status (Artifact.location key directory) = .ok (.file bytes time) := by
  have hfile := FileStore.fileAt?_of_status hsource
  have hkept := hpassed.source hs hp hq
  cases hpassed with
  | reuses => exact ⟨hsource, hartifact⟩
  | @writes k _ _ hk hunusable hwritten =>
    have hplace : s.locationOf (Artifact.location key directory) ≠
        s.locationOf (Artifact.location k directory) := by
      -- This artifact is not written, since it can take the place of its source.
      intro hplace
      obtain ⟨hlocation, rfl⟩ := hs.injective hq hp hkey hk hplace
      obtain ⟨text', u', hstatus', -⟩ := hwritten.source
      have hfile' := FileStore.fileAt?_of_status hstatus'
      rw [← hlocation, hfile] at hfile'
      cases hfile'
      exact hunusable ⟨_, bytes, time, m, hstatus', hartifact, hnewer, hm⟩
    have hstored : t.fileAt? (s.locationOf (Artifact.location key directory)) =
        some (bytes, time) := by
      rw [hwritten.files, if_neg hplace]
      exact FileStore.fileAt?_of_status hartifact
    exact ⟨FileStore.status_of_kept hwritten.workingDirectory hwritten.directories hsource
        (hkept.trans hfile),
      FileStore.status_of_kept hwritten.workingDirectory hwritten.directories hartifact hstored⟩

/-- An artifact that could take the place of its source at the start still can when the build comes
to the source. -/
theorem Passes.usable (hdirectory : settings.buildDirectory = some directory)
    (hs : Separate s settings.root directory sources) (hpasses : Passes settings s sources t q)
    (hkey : key? s settings.root q = some key)
    (h : Usable s (Artifact.location key directory) q) :
    Usable t (Artifact.location key directory) q := by
  obtain ⟨hq, t', hpassed⟩ := hpasses.passed hdirectory
  have hsame : t.workingDirectory = s.workingDirectory ∧
      t.fileAt? (s.locationOf q) = s.fileAt? (s.locationOf q) := by
    refine hpasses.keeps (P := fun s' => s'.workingDirectory = s.workingDirectory ∧
      s'.fileAt? (s.locationOf q) = s.fileAt? (s.locationOf q)) hdirectory ?_ ⟨rfl, rfl⟩
    rintro s₁ p s₂ hp hpassed ⟨hwd, hfile⟩
    refine ⟨hpassed.workingDirectory.trans hwd, ?_⟩
    rw [← hfile, ← FileStore.locationOf_congr hwd]
    exact hpassed.source (hs.congr hwd) hp hq
  obtain ⟨hwd, hfile⟩ := hsame
  have hkeyAt : key? t settings.root q = some key := (key?_congr hwd _ _).trans hkey
  cases hpassed with
  | reuses hk husable =>
    obtain rfl := Option.some.inj (hkeyAt.symm.trans hk)
    exact husable
  | writes hk _ hwritten =>
    -- The source is a file, and the same from the start.
    obtain ⟨text, u, hstatus, -⟩ := hwritten.source
    have htext := FileStore.fileAt?_of_status hstatus
    rw [FileStore.locationOf_congr hwd, hfile] at htext
    obtain ⟨current, bytes, time, m, hsource, hartifact, hnewer, hm⟩ := h
    obtain rfl := FileStore.eq_file_of_status hsource htext
    let P (s' : FileStore) : Prop := s'.workingDirectory = s.workingDirectory ∧
      s'.status q = .ok (.file text u) ∧
        s'.status (Artifact.location key directory) = .ok (.file bytes time)
    have hstep (s₁ : FileStore) (p : Path) (s₂ : FileStore) (hp : p ∈ sources)
        (hpassed : Passed settings directory s₁ p s₂) (hP : P s₁) : P s₂ := by
      obtain ⟨hwd, hsource, hartifact⟩ := hP
      exact ⟨hpassed.workingDirectory.trans hwd, hpassed.keepsUsable (hs.congr hwd) hp hq
        ((key?_congr hwd _ _).trans hkey) hsource hartifact hnewer hm⟩
    obtain ⟨-, hsource', hartifact'⟩ :=
      hpasses.keeps hdirectory hstep ⟨rfl, hsource, hartifact⟩
    exact ⟨_, bytes, time, m, hsource', hartifact', hnewer, hm⟩

/-- A build without artifacts changes nothing. -/
theorem addTrees_plain_store (settings : Settings) (s : FileStore) (sources : List Path)
    (trees : Trees) : (addTrees settings.plain s trees sources).store = s := by
  induction sources generalizing trees with
  | nil => rfl
  | cons p sources ih =>
    rw [addTrees]
    cases key? s settings.plain.root p with
    | none => rfl
    | some key =>
      have hstore : (sourceTree s key p settings.plain).store = s :=
        parseSource_none_store s key p settings.maxSourceBytes
      dsimp only
      generalize sourceTree s key p settings.plain = run at hstore
      obtain ⟨s', notices, result⟩ := run
      obtain rfl : s' = s := hstore
      cases result with
      | error f => rfl
      | ok m => exact ih _

end

end Build

/-- A build that ends with an answer or rejects a source.  With artifacts it changes no file but the
artifacts of the sources that it passes and for which it finds none to take their place, and these
then hold the trees of their sources.  Without artifacts it changes nothing. -/
theorem FileStore.build_writes {s : FileStore} {settings : Build.Settings} {directory : Path}
    {sources : List Path} (hdirectory : settings.buildDirectory = some directory)
    (hstart : s.CleanStart) (hclean : ∀ p ∈ sources, p.Clean)
    (hapart : ∀ p ∈ sources, ∀ q ∈ sources,
      Build.artifactOf? s settings.root directory q ≠ some (s.locationOf p))
    (hconcludes : (s.build settings sources).Concludes) :
    Build.WritesArtifacts s settings directory sources ∧
      (s.build settings.plain sources).store = s := by
  have hs : Build.Separate s settings.root directory sources := ⟨hstart, hclean, hapart⟩
  refine ⟨⟨?_, ?_, ?_, ?_, ?_⟩, Build.addTrees_plain_store settings s sources []⟩
  · intro p hp q hq key k hkey hk hne hplace
    exact hne (hs.injective hp hq hkey hk hplace).2
  · exact fun l hl => Build.addTrees_others hdirectory hl hconcludes
  · intro t p key hpasses hkey hunusable
    obtain ⟨⟨bytes, hholds⟩, -⟩ :=
      hpasses.written hdirectory hs (fun _ hp => hp) hkey hunusable hconcludes
    obtain ⟨⟨text, u, htext, -, chars, tree, hchars, htree, rfl⟩, time, hstatus⟩ := hholds
    have hwd := (Build.addTrees_keeps (P := fun s' => s'.workingDirectory = s.workingDirectory)
      hdirectory (fun _ _ _ _ hpassed hwd => hpassed.workingDirectory.trans hwd) rfl hconcludes).1
    refine ⟨text, u, chars, tree, time, htext, hchars, htree, ?_⟩
    have hfile := fileAt?_of_status hstatus
    rwa [locationOf_congr hwd] at hfile
  · exact fun t p key hpasses hkey h => hpasses.usable hdirectory hs hkey h
  · intro p r key hresult hkey
    refine Build.addTrees_others hdirectory ?_ hconcludes
    rintro k ⟨t, q, hpasses, hk, hunusable⟩
    exact (hpasses.written hdirectory hs (fun _ hp => hp) hk hunusable hconcludes).2 p r key
      hresult hkey

set_option maxRecDepth 2000 in
/-- A source with an artifact that holds no tree, and after it a source that is missing. -/
theorem FileStore.build_writes_rejected :
    ∃ s sources r, s = cachedProject [0x7B] ∧
      sources = [Path.ofString "s.pp", Path.ofString "t.pp"] ∧ s.CleanStart ∧
      (∀ p ∈ sources, p.Clean) ∧
      (∀ p ∈ sources, ∀ q ∈ sources,
        Build.artifactOf? s cachedSettings.root (Path.ofString "out") q ≠ some (s.locationOf p)) ∧
      (s.build cachedSettings sources).result = .error (.rejected (Path.ofString "t.pp") r) ∧
      Build.Fresh s cachedSettings (Path.ofString "out") sources (Text.ofString "s.pp") ∧
      Build.WritesArtifacts s cachedSettings (Path.ofString "out") sources ∧
      (s.build cachedSettings.plain sources).store = s := by
  have hstart : (cachedProject [0x7B]).CleanStart := ⟨by decide, by decide⟩
  have hclean : ∀ p ∈ [Path.ofString "s.pp", Path.ofString "t.pp"], p.Clean := by decide
  have hapart : ∀ p ∈ [Path.ofString "s.pp", Path.ofString "t.pp"],
      ∀ q ∈ [Path.ofString "s.pp", Path.ofString "t.pp"],
        Build.artifactOf? (cachedProject [0x7B]) cachedSettings.root (Path.ofString "out") q ≠
          some ((cachedProject [0x7B]).locationOf p) := by decide
  have hresult : ((cachedProject [0x7B]).build cachedSettings
      [Path.ofString "s.pp", Path.ofString "t.pp"]).result =
        .error (.rejected (Path.ofString "t.pp")
          (.unreadable (Text.ofString "t.pp") ⟨.missing, Path.ofString "t.pp"⟩)) := by cbv
  have hconcludes : ((cachedProject [0x7B]).build cachedSettings
      [Path.ofString "s.pp", Path.ofString "t.pp"]).Concludes := fun f hf =>
    ⟨_, _, Except.error.inj (hf.symm.trans hresult)⟩
  have hkey : Build.key? (cachedProject [0x7B]) cachedSettings.root (Path.ofString "s.pp") =
      some (Text.ofString "s.pp") := by cbv
  have hpassed : (Build.sourceTree (cachedProject [0x7B]) (Text.ofString "s.pp")
      (Path.ofString "s.pp") cachedSettings).result.toOption.map (fun _ => ()) = some () := by cbv
  obtain ⟨m, hm, -⟩ := exists_ok_of_map hpassed
  have hfile : Artifact.ofFile [0x7B] = .error (.notAnArtifact .notJson) := by cbv
  have hartifact : (cachedProject [0x7B]).status
      (Artifact.location (Text.ofString "s.pp") (Path.ofString "out")) =
        .ok (.file [0x7B] 2) := by cbv
  have hunusable : ¬ Build.Usable (cachedProject [0x7B])
      (Artifact.location (Text.ofString "s.pp") (Path.ofString "out")) (Path.ofString "s.pp") := by
    rintro ⟨current, bytes, t, m, -, hstored, -, hm⟩
    rw [hartifact] at hstored
    cases hstored
    rw [hfile] at hm
    cases hm
  have hwrites := FileStore.build_writes rfl hstart hclean hapart hconcludes
  have hfresh : Build.Fresh (cachedProject [0x7B]) cachedSettings (Path.ofString "out")
      [Path.ofString "s.pp", Path.ofString "t.pp"] (Text.ofString "s.pp") :=
    ⟨_, _, .here hkey hm, hkey, hunusable⟩
  exact ⟨_, _, _, rfl, rfl, hstart, hclean, hapart, hresult, hfresh, hwrites.1, hwrites.2⟩

end ManifestTree
