import ManifestTree.Build
import ManifestTree.Proofs.Directories

/-!
# The steps of a build

What a build of one source is, what its parts say when they succeed, and what they depend on.
-/

namespace ManifestTree.Build

/-! ## Looking -/

theorem key?_congr {s s' : FileStore} (h : s'.workingDirectory = s.workingDirectory)
    (root source : Path) : key? s' root source = key? s root source := by
  simp [key?, FileStore.resolve_congr h]

/-- Sources with the same status have the same text. -/
theorem readSource_congr {s s' : FileStore} {source : Path}
    (h : s'.status source = s.status source) (key : Text) (limit : Option Int) :
    readSource s' key source limit = readSource s key source limit := by
  simp [readSource, FileStore.read, h]

/-- A text that was read is that of a file with not too many bytes. -/
theorem readSource_ok {s : FileStore} {key : Text} {p : Path} {limit : Option Int}
    {chars : List Char} (h : readSource s key p limit = .ok chars) :
    ∃ text u, s.status p = .ok (.file text u) ∧ isOver text.length limit = false ∧
      Text.ofFile text = .ok chars := by
  unfold readSource at h
  split at h
  · cases h
  next e he =>
  split at h
  · cases h
  next hover =>
  cases e with
  | directory t => simp [FileStore.read, he] at h
  | file text u =>
    rw [FileStore.read_of_status he] at h
    refine ⟨text, u, he, by simpa [Entry.size] using hover, ?_⟩
    dsimp only at h
    split at h
    · cases h
    · next htext => rw [htext, Except.ok.inj h]

theorem parseText_ok {key : Text} {p : Path} {chars : List Char} {m : Node}
    (h : parseText key p chars = .ok m) : Node.parse (Text.ofChars chars) = .ok m := by
  unfold parseText at h
  split at h
  · next hm => rw [hm, Except.ok.inj h]
  all_goals cases h

/-- What a build makes of an artifact that is newer than its source. -/
theorem kept_newer {s : FileStore} {source artifact : Path} {text bytes : List UInt8} {u t : Int}
    (hsource : s.status source = .ok (.file text u))
    (hartifact : s.status artifact = .ok (.file bytes t)) (hnewer : u < t) :
    kept s source artifact =
      match Artifact.ofFile bytes with
      | .ok m => .tree m
      | .error f => if f.isHarmless then .unusable f else .failed (.damagedArtifact f) := by
  have hle : ¬ (Entry.file bytes t).modified ≤ (Entry.file text u).modified := by
    simp only [Entry.modified]
    omega
  have hread := FileStore.read_of_status hartifact
  cases hfile : Artifact.ofFile bytes with
  | ok m => simp only [kept, hartifact, hsource, if_neg hle, hread, hfile]
  | error f => simp only [kept, hartifact, hsource, if_neg hle, hread, hfile]

/-- An artifact that is not newer than its source is as good as none. -/
theorem kept_notNewer {s : FileStore} {source artifact : Path} {text bytes : List UInt8}
    {u t : Int} (hsource : s.status source = .ok (.file text u))
    (hartifact : s.status artifact = .ok (.file bytes t)) (hle : t ≤ u) :
    kept s source artifact = .nothing := by
  have hle : (Entry.file bytes t).modified ≤ (Entry.file text u).modified := hle
  simp only [kept, hartifact, hsource, if_pos hle]

/-- An artifact that is newer than its source is looked into. -/
theorem kept_ne_nothing {s : FileStore} {source artifact : Path} {current stored : Entry}
    (hsource : s.status source = .ok current) (hartifact : s.status artifact = .ok stored)
    (hnewer : current.modified < stored.modified) : kept s source artifact ≠ .nothing := by
  intro h
  unfold kept at h
  simp only [hsource, hartifact, if_neg (Int.not_le.mpr hnewer)] at h
  split at h
  · cases h
  split at h
  · cases h
  · split at h <;> cases h

/-! ## Building -/

/-- What comes of a build of one source. -/
def Run.alone (key : Text) (run : Run Node) : Run Trees :=
  ⟨run.store, run.notices, run.result.map fun m => [(key, m)]⟩

@[simp] theorem Run.alone_ok {key : Text} {run : Run Node} {trees : Trees} :
    (run.alone key).result = .ok trees ↔ ∃ m, run.result = .ok m ∧ trees = [(key, m)] := by
  obtain ⟨store, notices, result⟩ := run
  cases result <;> simp [alone, Except.map, eq_comm]

@[simp] theorem Run.alone_error {key : Text} {run : Run Node} {f : Fault} :
    (run.alone key).result = .error f ↔ run.result = .error f := by
  obtain ⟨store, notices, result⟩ := run
  cases result <;> simp [alone, Except.map]

theorem build_single {s : FileStore} {settings : Settings} {source : Path} {key : Text}
    (hkey : key? s settings.root source = some key) :
    s.build settings [source] = (sourceTree s key source settings).alone key := by
  unfold FileStore.build
  simp only [addTrees, hkey]
  obtain ⟨s', notices, result⟩ := sourceTree s key source settings
  cases result with
  | error f => rfl
  | ok m => simp [Run.alone, Trees.set, Except.map]

theorem sourceTree_workingDirectory (s : FileStore) (key : Text) (source : Path)
    (settings : Settings) :
    (sourceTree s key source settings).store.workingDirectory = s.workingDirectory := by
  have hparse (artifact : Option Path) :
      (parseSource s key source settings.maxSourceBytes artifact).store.workingDirectory =
        s.workingDirectory := by
    unfold parseSource
    split
    · rfl
    · split
      · rfl
      · next m _ =>
        cases artifact with
        | none => rfl
        | some path =>
          have hwrite := s.writeWithParents_workingDirectory path (Artifact.toFile m)
          simp only [keep]
          split <;> next hw => simpa [hw] using hwrite
  unfold sourceTree
  split
  · exact hparse none
  · dsimp only
    split
    · exact hparse _
    · rfl
    · rfl
    · exact hparse _

/-- Further sources are added one after another. -/
theorem addTrees_cons (settings : Settings) (s : FileStore) (trees : Trees) (source : Path)
    (sources : List Path) :
    addTrees settings s trees (source :: sources) =
      match addTrees settings s trees [source] with
      | ⟨s, notices, .error f⟩ => ⟨s, notices, .error f⟩
      | ⟨s, notices, .ok trees⟩ =>
        let run := addTrees settings s trees sources
        { run with notices := notices ++ run.notices } := by
  simp only [addTrees]
  cases key? s settings.root source with
  | none => rfl
  | some key =>
    simp only
    obtain ⟨s', notices, result⟩ := sourceTree s key source settings
    cases result <;> simp

/-- What comes of a build is decided source by source. -/
theorem addTrees_result (settings : Settings) (s : FileStore) (trees : Trees) (p : Path)
    (sources : List Path) :
    (addTrees settings s trees (p :: sources)).result =
      match key? s settings.root p with
      | none => .error (.rejected p (.outside settings.root))
      | some key =>
        match (sourceTree s key p settings).result with
        | .error f => .error f
        | .ok m =>
          (addTrees settings (sourceTree s key p settings).store (trees.set key m)
            sources).result := by
  rw [addTrees]
  cases key? s settings.root p with
  | none => rfl
  | some key =>
    dsimp only
    generalize sourceTree s key p settings = run
    obtain ⟨s', notices, result⟩ := run
    cases result <;> rfl

/-! ## Builds without artifacts -/

/-- A build without artifacts. -/
def Settings.plain (settings : Settings) : Settings := { settings with buildDirectory := none }

theorem parseSource_none_store (s : FileStore) (key : Text) (p : Path) (limit : Option Int) :
    (parseSource s key p limit none).store = s := by
  unfold parseSource
  split
  · rfl
  · dsimp only
    split <;> rfl

/-- Without artifacts, what comes of a source depends on its status alone. -/
theorem parseSource_none_congr {s s' : FileStore} {p : Path} (h : s'.status p = s.status p)
    (key : Text) (limit : Option Int) :
    (parseSource s' key p limit none).result = (parseSource s key p limit none).result := by
  unfold parseSource
  rw [readSource_congr h]
  split
  · rfl
  · dsimp only
    split <;> rfl

/-- Without artifacts, what comes of a build depends on the sources alone. -/
theorem addTrees_plain_congr (settings : Settings) {s s' : FileStore} {sources : List Path}
    (hwd : s'.workingDirectory = s.workingDirectory)
    (hstatus : ∀ p ∈ sources, s'.status p = s.status p) (trees : Trees) :
    (addTrees settings.plain s' trees sources).result =
      (addTrees settings.plain s trees sources).result := by
  induction sources generalizing trees with
  | nil => rfl
  | cons p sources ih =>
    obtain ⟨hp, hsources⟩ := List.forall_mem_cons.mp hstatus
    have hkey : key? s' settings.plain.root p = key? s settings.plain.root p := key?_congr hwd _ _
    have hplain (s : FileStore) (key : Text) : sourceTree s key p settings.plain =
        parseSource s key p settings.maxSourceBytes none := rfl
    rw [addTrees_result, addTrees_result, hkey]
    cases key? s settings.plain.root p with
    | none => rfl
    | some key =>
      simp only [hplain, parseSource_none_store, parseSource_none_congr hp]
      cases (parseSource s key p settings.maxSourceBytes none).result with
      | error f => rfl
      | ok m => exact ih hsources _

end ManifestTree.Build
