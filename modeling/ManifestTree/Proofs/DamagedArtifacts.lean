import ManifestTree.Proofs.ArtifactFiles
import ManifestTree.Proofs.ArtifactPlaces
import ManifestTree.Proofs.BuildSteps

/-!
# Builds with damaged artifacts

An artifact that is newer than its source holds a tree, which the build takes, or it is passed over,
and the build does what it does where the artifact is missing.  Two kinds of contents are neither: a
JSON value that is no object, and an object of the supported version without a manifest.  They stop
the build, and nothing else in an artifact does.
-/

namespace ManifestTree

/-! ## What artifacts hold -/

/-- The bytes are the text of a JSON value that is no object, or of an object of the supported
version without a manifest. -/
def Artifact.Breaking (bytes : List UInt8) : Prop :=
  ∃ text j, Text.ofFile bytes = .ok text ∧ Json.read text = some j ∧
    ((∀ members, j ≠ .object members) ∨
      isSupported ((Stored.member? "v" j).getD .null) ∧ Stored.member? "manifest" j = none)

/-- A value is refused with a fault that a build cannot do without just in these two cases. -/
theorem Artifact.ofJson_harmful (j : Json) :
    (∃ f, ofJson j = .error f ∧ ¬ (ReadFault.notAnArtifact f).isHarmless) ↔
      (∀ members, j ≠ .object members) ∨
        isSupported ((Stored.member? "v" j).getD .null) ∧ Stored.member? "manifest" j = none := by
  cases j with
  | object members =>
    simp only [ofJson, ne_eq, Json.object.injEq, forall_eq', false_or]
    by_cases hv : isSupported ((Stored.member? "v" (.object members)).getD .null)
    · cases hm : Stored.member? "manifest" (.object members) with
      | none => simp [hv, ReadFault.isHarmless]
      | some tree =>
        cases htree : Node.ofJson? (.only .manifest) tree <;>
          simp [hv, htree, ReadFault.isHarmless]
    · simp [hv, ReadFault.isHarmless]
  | _ => simp [ofJson, ReadFault.isHarmless]

theorem Artifact.ofFile_harmful (bytes : List UInt8) :
    (∃ f, ofFile bytes = .error f ∧ ¬ f.isHarmless) ↔ Breaking bytes := by
  unfold ofFile Breaking
  cases Text.ofFile bytes with
  | error f => simp [ReadFault.isHarmless]
  | ok text =>
    simp only [deserialize]
    cases hread : Json.read text with
    | none => simp [hread, ReadFault.isHarmless]
    | some j =>
      have h := ofJson_harmful j
      simp only [Except.ok.injEq, exists_and_left, exists_eq_left', hread, Option.some.injEq, ← h]
      cases ofJson j with
      | ok m => simp
      | error f => simp

namespace Build

/-! ## Passing over an artifact -/

/-- A run leaves the files and directories of another, and reports and answers the same. -/
structure Run.Agrees {α : Type} (run other : Run α) : Prop where
  notices : run.notices = other.notices
  result : run.result = other.result
  /-- The directories are the same. -/
  directories : FileStore.SameDirectories other.store run.store
  /-- If there is a result, the files are the same. -/
  files : ∀ x, run.result = .ok x → ∀ l, run.store.fileAt? l = other.store.fileAt? l

/-- Keeping an artifact replaces an earlier one: it is as if that had not been there. -/
theorem keep_agrees {s s' : FileStore} {p : Path} {n : FileName} {d : Location} (m : Node)
    (h : s.locate p = .ok d) (hd : s.isDirectoryAt d) (hn : n ≠ FileName.parent)
    (hl : ¬ s.isDirectoryAt (d ++ [n])) (hsame : FileStore.SameDirectories s s')
    (hfiles : ∀ l, l ≠ d ++ [n] → s'.fileAt? l = s.fileAt? l) :
    (keep s (some (p.child n)) m).Agrees (keep s' (some (p.child n)) m) ∧
      (keep s (some (p.child n)) m).result = .ok m ∧
      (keep s (some (p.child n)) m).store.read (p.child n) = .ok (Artifact.toFile m) := by
  have hd' : s'.isDirectoryAt d := by rwa [hsame.directories]
  have hl' : ¬ s'.isDirectoryAt (d ++ [n]) := by rwa [hsame.directories]
  have h' : s'.locate p = .ok d :=
    FileStore.locate_of_directories hsame.workingDirectory
      (fun l hdir => by rwa [hsame.directories]) h (FileStore.isSome_find?.mpr (.inr hd'))
  obtain ⟨r, hr, hrsame, hrfiles, hstatus⟩ :=
    FileStore.writeWithParents_of_isDirectory (Artifact.toFile m) h hd hn hl
  obtain ⟨r', hr', hrsame', hrfiles', -⟩ :=
    FileStore.writeWithParents_of_isDirectory (Artifact.toFile m) h' hd' hn hl'
  have hkeep : keep s (some (p.child n)) m = ⟨r, [.wrote (p.child n)], .ok m⟩ := by
    simp [keep, hr]
  have hkeep' : keep s' (some (p.child n)) m = ⟨r', [.wrote (p.child n)], .ok m⟩ := by
    simp [keep, hr']
  rw [hkeep, hkeep']
  refine ⟨⟨rfl, rfl, (hrsame'.symm.trans hsame.symm).trans hrsame, fun x hx l => ?_⟩, rfl,
    FileStore.read_of_status hstatus⟩
  show r.fileAt? l = r'.fileAt? l
  rw [hrfiles, hrfiles', hsame.clock]
  split
  · rfl
  · next hne => exact (hfiles l hne).symm

/-- A source is parsed the same way whether or not there is an artifact to be replaced. -/
theorem parseSource_agrees {s s' : FileStore} {source p : Path} {n : FileName} {d : Location}
    (key : Text) (limit : Option Int) (hsource : s'.status source = s.status source)
    (h : s.locate p = .ok d) (hd : s.isDirectoryAt d) (hn : n ≠ FileName.parent)
    (hl : ¬ s.isDirectoryAt (d ++ [n])) (hsame : FileStore.SameDirectories s s')
    (hfiles : ∀ l, l ≠ d ++ [n] → s'.fileAt? l = s.fileAt? l) :
    let run := parseSource s key source limit (some (p.child n))
    let other := parseSource s' key source limit (some (p.child n))
    run.Agrees other ∧
      (∀ m, run.result = .ok m →
        (∃ chars, Node.parse (Text.ofChars chars) = .ok m) ∧
          run.store.read (p.child n) = .ok (Artifact.toFile m)) ∧
      ∀ e, run.result = .error e → run.store = s ∧ other.store = s' := by
  simp only [parseSource, readSource_congr hsource]
  cases readSource s key source limit with
  | error r =>
    refine ⟨⟨rfl, rfl, hsame.symm, fun m hm => ?_⟩, fun m hm => ?_, fun _ _ => ⟨rfl, rfl⟩⟩
    · cases hm
    · cases hm
  | ok text =>
    simp only
    cases hparse : parseText key source text with
    | error f =>
      refine ⟨⟨rfl, rfl, hsame.symm, fun m hm => ?_⟩, fun m hm => ?_, fun _ _ => ⟨rfl, rfl⟩⟩
      · cases hm
      · cases hm
    | ok m =>
      have hm := parseText_ok hparse
      obtain ⟨hagrees, hresult, hread⟩ := keep_agrees m h hd hn hl hsame hfiles
      refine ⟨⟨?_, hagrees.result, hagrees.directories, hagrees.files⟩, fun m' hm' => ?_,
        fun e he => ?_⟩
      · exact congrArg (.parsing key text.length :: ·) hagrees.notices
      · obtain rfl : m = m' := by simpa [hresult] using hm'
        exact ⟨⟨text, hm⟩, hread⟩
      · simp [hresult] at he

/-! ## What stops a build -/

/-- Parsing a source is not stopped by an artifact. -/
theorem parseSource_result_ne (s : FileStore) (key : Text) (source : Path) (limit : Option Int)
    (artifact : Option Path) (f : Artifact.ReadFault) :
    (parseSource s key source limit artifact).result ≠ .error (.damagedArtifact f) := by
  unfold parseSource
  split
  · simp
  · next text _ =>
    split
    · next hparse =>
      unfold parseText at hparse
      split at hparse <;> cases hparse <;> simp
    · unfold keep
      split
      · simp
      · split <;> simp

/-- A source is not parsed because of its artifact only if that is of one of the two kinds. -/
theorem sourceTree_damagedArtifact {s : FileStore} {key : Text} {source : Path}
    {settings : Settings} {f : Artifact.ReadFault}
    (h : (sourceTree s key source settings).result = .error (.damagedArtifact f)) :
    (sourceTree s key source settings).store = s ∧
      ∃ directory bytes, settings.buildDirectory = some directory ∧
        s.read (Artifact.location key directory) = .ok bytes ∧
        Artifact.ofFile bytes = .error f ∧ Artifact.Breaking bytes := by
  unfold sourceTree at h ⊢
  cases hdirectory : settings.buildDirectory with
  | none => simp [hdirectory, parseSource_result_ne] at h
  | some directory =>
    simp only [hdirectory] at h ⊢
    cases hkept : kept s source (Artifact.location key directory) with
    | nothing => simp [hkept, parseSource_result_ne] at h
    | tree m => simp [hkept] at h
    | unusable g => simp [hkept, parseSource_result_ne] at h
    | failed e =>
      obtain rfl : e = .damagedArtifact f := by simpa [hkept] using h
      refine ⟨rfl, directory, ?_⟩
      unfold kept at hkept
      split at hkept
      · cases hkept
      split at hkept
      · cases hkept
      split at hkept
      · cases hkept
      split at hkept
      · cases hkept
      next bytes hread =>
      refine ⟨bytes, rfl, hread, ?_⟩
      split at hkept
      · cases hkept
      next g hg =>
      split at hkept
      · cases hkept
      next hharm =>
      cases hkept
      exact ⟨hg, (Artifact.ofFile_harmful bytes).mp ⟨f, hg, hharm⟩⟩

/-- A build of any sources that fails because of an artifact has come to one of the two kinds. -/
theorem addTrees_damagedArtifact {settings : Settings} {f : Artifact.ReadFault}
    {sources : List Path} {s : FileStore} {trees : Trees}
    (h : (addTrees settings s trees sources).result = .error (.damagedArtifact f)) :
    ∃ source ∈ sources, ∃ key directory bytes,
      key? s settings.root source = some key ∧ settings.buildDirectory = some directory ∧
      (addTrees settings s trees sources).store.read (Artifact.location key directory) =
        .ok bytes ∧
      Artifact.ofFile bytes = .error f ∧ Artifact.Breaking bytes := by
  induction sources generalizing s trees with
  | nil => cases h
  | cons source sources ih =>
    unfold addTrees at h ⊢
    cases hkey : key? s settings.root source with
    | none => simp [hkey] at h
    | some key =>
      have hdamaged := @sourceTree_damagedArtifact s key source settings f
      have hwd := sourceTree_workingDirectory s key source settings
      simp only [hkey] at h ⊢
      generalize sourceTree s key source settings = run at h hdamaged hwd ⊢
      obtain ⟨s', notices, result⟩ := run
      cases result with
      | error e =>
        cases h
        obtain ⟨rfl, directory, bytes, hdirectory, hread, hfile⟩ := hdamaged rfl
        exact ⟨source, List.mem_cons_self, key, directory, bytes, hkey, hdirectory, hread, hfile⟩
      | ok m =>
        dsimp only at h ⊢
        obtain ⟨other, hother, k, directory, bytes, hk, hrest⟩ := ih h
        refine ⟨other, List.mem_cons_of_mem _ hother, k, directory, bytes, ?_, hrest⟩
        rw [← hk, key?, key?, FileStore.resolve_congr hwd, FileStore.resolve_congr hwd]

/-! ## Newer artifacts -/

section

variable {s : FileStore} {settings : Settings} {directory source : Path} {key : Text}

/-- Without an artifact, a source is parsed. -/
theorem sourceTree_missing {e : AccessFault}
    (hdirectory : settings.buildDirectory = some directory)
    (h : s.status (Artifact.location key directory) = .error e) :
    sourceTree s key source settings =
      parseSource s key source settings.maxSourceBytes
        (some (Artifact.location key directory)) := by
  simp [sourceTree, hdirectory, kept, h]

variable {text bytes : List UInt8} {u t : Int}

/-- A newer artifact that holds a tree takes the place of its source. -/
theorem sourceTree_newer_ok {m : Node} (hdirectory : settings.buildDirectory = some directory)
    (hsource : s.status source = .ok (.file text u))
    (hartifact : s.status (Artifact.location key directory) = .ok (.file bytes t))
    (hnewer : u < t) (hm : Artifact.ofFile bytes = .ok m) :
    sourceTree s key source settings = ⟨s, [.reusing key], .ok m⟩ := by
  have hkept := kept_newer hsource hartifact hnewer
  simp [sourceTree, hdirectory, hkept, hm]

/-- A newer artifact of one of the two kinds stops the build. -/
theorem sourceTree_newer_harmful {f : Artifact.ReadFault}
    (hdirectory : settings.buildDirectory = some directory)
    (hsource : s.status source = .ok (.file text u))
    (hartifact : s.status (Artifact.location key directory) = .ok (.file bytes t))
    (hnewer : u < t) (hf : Artifact.ofFile bytes = .error f) (hharm : ¬ f.isHarmless) :
    sourceTree s key source settings = ⟨s, [], .error (.damagedArtifact f)⟩ := by
  have hkept := kept_newer hsource hartifact hnewer
  simp [sourceTree, hdirectory, hkept, hf, hharm]

/-- Any other newer artifact is passed over with a warning. -/
theorem sourceTree_newer_harmless {f : Artifact.ReadFault}
    (hdirectory : settings.buildDirectory = some directory)
    (hsource : s.status source = .ok (.file text u))
    (hartifact : s.status (Artifact.location key directory) = .ok (.file bytes t))
    (hnewer : u < t) (hf : Artifact.ofFile bytes = .error f) (hharmless : f.isHarmless) :
    sourceTree s key source settings =
      let run := parseSource s key source settings.maxSourceBytes
        (some (Artifact.location key directory))
      { run with notices := .ignoring (Artifact.location key directory) f :: run.notices } := by
  have hkept := kept_newer hsource hartifact hnewer
  simp [sourceTree, hdirectory, hkept, hf, hharmless]

/-- An artifact can be removed; its source is then still there, and all that lies elsewhere. -/
theorem remove_artifact (hsource : s.status source = .ok (.file text u))
    (hartifact : s.status (Artifact.location key directory) = .ok (.file bytes t)) (hne : u ≠ t) :
    ∃ s' d, s.remove (Artifact.location key directory) = .ok s' ∧
      s.locate (Artifact.folder key directory) = .ok d ∧ s.isDirectoryAt d ∧
      ¬ s.isDirectoryAt (d ++ [Artifact.fileName key]) ∧ FileStore.SameDirectories s s' ∧
      (∀ l, l ≠ d ++ [Artifact.fileName key] → s'.fileAt? l = s.fileAt? l) ∧
      s'.status source = s.status source ∧
      ∃ e, s'.status (Artifact.location key directory) = .error e := by
  obtain ⟨l, hlocate, hbytes⟩ := FileStore.status_eq_file.mp hartifact
  obtain ⟨s', hremove, hsame, hfiles⟩ := FileStore.remove_of_locate hlocate hbytes
  have hl := FileStore.locate_eq hlocate
  have hsource' : s.locationOf source ≠ l := by
    intro heq
    have htext := FileStore.fileAt?_of_status hsource
    rw [heq, hbytes, Option.some.injEq, Prod.mk.injEq] at htext
    exact hne htext.2.symm
  have hgone : s'.fileAt? l = none := by rw [hfiles, if_pos rfl]
  rw [Artifact.location_eq_child] at hlocate
  obtain ⟨d, hd, hdir, hchild⟩ := FileStore.locate_child hlocate (Artifact.fileName_ne_parent key)
  refine ⟨s', d, hremove, hd, hdir, ?_, hsame, fun k hk => ?_, ?_, ?_⟩
  · rw [← hchild]
    exact FileStore.not_isDirectoryAt hbytes
  · rw [hfiles, if_neg (hchild ▸ hk)]
  · rw [hsource]
    exact FileStore.status_of_gone hsame hfiles hsource hsource'
  · rw [hl] at hbytes hgone
    exact FileStore.status_gone hsame hbytes hgone

end

end Build

/-- A build of a source whose artifact is newer.  If the artifact is of one of the two kinds that
stop a build, the build stops there and changes nothing.  Any other artifact holds a tree, which is
the result, or it is passed over: then the build answers, reports and leaves what it does in the
store without the artifact, apart from a warning and, if it fails, from the artifact itself.  A tree
that comes of it is kept in the place of the artifact and reads back from there.  No build of any
sources is stopped by an artifact of another kind. -/
theorem FileStore.build_newerArtifact {s : FileStore} {settings : Build.Settings}
    {directory source : Path} {key : Text} {text bytes : List UInt8} {u t : Int}
    (hdirectory : settings.buildDirectory = some directory)
    (hkey : Build.key? s settings.root source = some key)
    (hsource : s.status source = .ok (.file text u))
    (hartifact : s.status (Artifact.location key directory) = .ok (.file bytes t))
    (hnewer : u < t) :
    (Artifact.Breaking bytes →
      ∃ f, Artifact.ofFile bytes = .error f ∧
        s.build settings [source] = ⟨s, [], .error (.damagedArtifact f)⟩) ∧
    (¬ Artifact.Breaking bytes →
      (∃ m, Artifact.ofFile bytes = .ok m ∧
        s.build settings [source] = ⟨s, [.reusing key], .ok [(key, m)]⟩) ∨
      ∃ f s', Artifact.ofFile bytes = .error f ∧
        s.remove (Artifact.location key directory) = .ok s' ∧
        let run := s.build settings [source]
        let without := s'.build settings [source]
        run.result = without.result ∧
        run.notices = .ignoring (Artifact.location key directory) f :: without.notices ∧
        (∀ trees, run.result = .ok trees →
          (∀ l, run.store.fileAt? l = without.store.fileAt? l ∧
            run.store.isDirectoryAt l = without.store.isDirectoryAt l) ∧
          ∃ m, trees = [(key, m)] ∧
            run.store.read (Artifact.location key directory) = .ok (Artifact.toFile m) ∧
            Artifact.ofFile (Artifact.toFile m) = .ok m) ∧
        ∀ e, run.result = .error e → run.store = s ∧ without.store = s') ∧
    ∀ sources f, (s.build settings sources).result = .error (.damagedArtifact f) →
      ∃ other ∈ sources, ∃ k held,
        Build.key? s settings.root other = some k ∧
        (s.build settings sources).store.read (Artifact.location k directory) = .ok held ∧
        Artifact.ofFile held = .error f ∧ Artifact.Breaking held := by
  have hbuild : s.build settings [source] = (Build.sourceTree s key source settings).alone key :=
    Build.build_single hkey
  refine ⟨fun hbreaking => ?_, fun hbreaking => ?_, fun sources f h => ?_⟩
  · obtain ⟨f, hf, hharm⟩ := (Artifact.ofFile_harmful bytes).mpr hbreaking
    refine ⟨f, hf, ?_⟩
    rw [hbuild, Build.sourceTree_newer_harmful hdirectory hsource hartifact hnewer hf hharm]
    rfl
  · cases hfile : Artifact.ofFile bytes with
    | ok m =>
      refine .inl ⟨m, rfl, ?_⟩
      rw [hbuild, Build.sourceTree_newer_ok hdirectory hsource hartifact hnewer hfile]
      rfl
    | error f =>
      have hharmless : f.isHarmless := by
        by_contra hharm
        exact hbreaking ((Artifact.ofFile_harmful bytes).mp ⟨f, hfile, hharm⟩)
      obtain ⟨s', d, hremove, hd, hdir, hplace, hsame, hfiles, hsource', e, he⟩ :=
        Build.remove_artifact hsource hartifact (by omega)
      refine .inr ⟨f, s', rfl, hremove, ?_⟩
      have hkey' : Build.key? s' settings.root source = some key := by
        rw [Build.key?_congr hsame.workingDirectory, hkey]
      have hparse := Build.parseSource_agrees key settings.maxSourceBytes hsource' hd hdir
        (Artifact.fileName_ne_parent key) hplace hsame hfiles
      rw [← Artifact.location_eq_child] at hparse
      rw [hbuild, Build.build_single hkey', Build.sourceTree_missing hdirectory he,
        Build.sourceTree_newer_harmless hdirectory hsource hartifact hnewer hfile hharmless]
      dsimp only
      generalize Build.parseSource s key source settings.maxSourceBytes _ = run at hparse ⊢
      generalize Build.parseSource s' key source settings.maxSourceBytes _ = without at hparse ⊢
      obtain ⟨hagrees, hok, herror⟩ := hparse
      refine ⟨congrArg (Except.map fun m => [(key, m)]) hagrees.result,
        congrArg (List.cons (Notice.ignoring (Artifact.location key directory) f)) hagrees.notices,
        fun trees htrees => ?_, fun e he => herror e (Build.Run.alone_error.mp he)⟩
      obtain ⟨m, hresult, rfl⟩ := Build.Run.alone_ok.mp htrees
      obtain ⟨⟨read, hread⟩, hstored⟩ := hok m hresult
      exact ⟨fun l => ⟨hagrees.files m hresult l, hagrees.directories.directories l⟩, m, rfl,
        hstored, Artifact.ofFile_toFile hread⟩
  · obtain ⟨other, hother, k, d, held, hk, hd, hrest⟩ := Build.addTrees_damagedArtifact h
    obtain rfl : directory = d := by simpa [hdirectory] using hd
    exact ⟨other, hother, k, held, hk, hrest⟩

/-- A project with a source and a newer artifact of it. -/
def cachedProject (bytes : List UInt8) : FileStore :=
  { entries :=
      [([Text.ofString "p"], .directory 0),
        ([Text.ofString "p", Text.ofString "s.pp"], .file (Utf8.encode "include base".toList) 1),
        ([Text.ofString "p", Text.ofString "out"], .directory 0),
        ([Text.ofString "p", Text.ofString "out", Text.ofString "s.pp.cst.json"], .file bytes 2)]
    workingDirectory := [Text.ofString "p"]
    clock := 3 }

/-- The project once the artifact is removed. -/
def bareProject : FileStore :=
  { entries :=
      [([Text.ofString "p"], .directory 0),
        ([Text.ofString "p", Text.ofString "s.pp"], .file (Utf8.encode "include base".toList) 1),
        ([Text.ofString "p", Text.ofString "out"], .directory 3)]
    workingDirectory := [Text.ofString "p"]
    clock := 3 }

/-- Artifacts are kept in a directory of the project. -/
def cachedSettings : Build.Settings := ⟨Path.here, some (Path.ofString "out"), none⟩

set_option maxRecDepth 2000 in
/-- An artifact that is no JSON is passed over, and then holds the tree. -/
theorem FileStore.build_newerArtifact_notJson :
    ∃ s key artifact f s' m, s = cachedProject [0x7B] ∧ key = Text.ofString "s.pp" ∧
      artifact = Artifact.location key (Path.ofString "out") ∧
      Artifact.ofFile [0x7B] = .error f ∧ s.remove artifact = .ok s' ∧
      let run := s.build cachedSettings [Path.ofString "s.pp"]
      let without := s'.build cachedSettings [Path.ofString "s.pp"]
      run.result = without.result ∧ run.notices = .ignoring artifact f :: without.notices ∧
      run.result = .ok [(key, m)] ∧ run.store.read artifact = .ok (Artifact.toFile m) ∧
      Artifact.ofFile (Artifact.toFile m) = .ok m := by
  have hfile : Artifact.ofFile [0x7B] = .error (.notAnArtifact .notJson) := by cbv
  have hbreaking : ¬ Artifact.Breaking [0x7B] := by
    rw [← Artifact.ofFile_harmful, hfile]
    rintro ⟨f, hf, hharm⟩
    cases hf
    exact hharm rfl
  have hrun : ((cachedProject [0x7B]).build cachedSettings
      [Path.ofString "s.pp"]).result.toOption.map (fun _ => ()) = some () := by cbv
  obtain ⟨trees, htrees, -⟩ := exists_ok_of_map hrun
  have hkey : Build.key? (cachedProject [0x7B]) Path.here (Path.ofString "s.pp") =
      some (Text.ofString "s.pp") := by cbv
  have hsource : (cachedProject [0x7B]).status (Path.ofString "s.pp") =
      .ok (.file (Utf8.encode "include base".toList) 1) := by cbv
  have hartifact : (cachedProject [0x7B]).status
      (Artifact.location (Text.ofString "s.pp") (Path.ofString "out")) =
        .ok (.file [0x7B] 2) := by cbv
  have hdirectory : cachedSettings.buildDirectory = some (Path.ofString "out") := rfl
  have hnewer := (FileStore.build_newerArtifact hdirectory hkey hsource hartifact
    (by decide)).2.1 hbreaking
  rcases hnewer with ⟨m, hm, -⟩ | ⟨f, s', hf, hremove, hresult, hnotices, hok, -⟩
  · rw [hfile] at hm
    cases hm
  · obtain ⟨-, m, rfl, hread, hm⟩ := hok trees htrees
    exact ⟨_, _, _, f, s', m, rfl, rfl, rfl, hf, hremove, hresult, hnotices, htrees, hread, hm⟩

set_option maxRecDepth 2000 in
/-- An empty array in an artifact stops the build of a source that is parsed without it, and so does
an object that holds nothing but the version. -/
theorem FileStore.build_breakingArtifact :
    (∀ bytes, (cachedProject bytes).remove (Path.ofString "out/s.pp.cst.json") =
      .ok bareProject) ∧
    (∃ trees, (bareProject.build cachedSettings [Path.ofString "s.pp"]).result = .ok trees) ∧
    ((cachedProject (Utf8.encode "[]".toList)).build cachedSettings
        [Path.ofString "s.pp"]).result =
      .error (.damagedArtifact (.notAnArtifact .notAnObject)) ∧
    ((cachedProject (Utf8.encode "\x7b\"v\":\"1\"\x7d".toList)).build cachedSettings
        [Path.ofString "s.pp"]).result =
      .error (.damagedArtifact (.notAnArtifact .missingManifest)) := by
  have hrun : (bareProject.build cachedSettings
      [Path.ofString "s.pp"]).result.toOption.map (fun _ => ()) = some () := by cbv
  obtain ⟨trees, htrees, -⟩ := exists_ok_of_map hrun
  refine ⟨fun bytes => ?_, ⟨trees, htrees⟩, ?_, ?_⟩
  · cbv
  · cbv
  · cbv

end ManifestTree
