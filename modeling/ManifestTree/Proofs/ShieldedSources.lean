import ManifestTree.Proofs.DamagedArtifacts

/-!
# Sources that are turned away

A build turns a source away if it is missing or has too many bytes.  A build with artifacts looks at
the artifact first, and turns the source away for the same reason only if it comes to look at the
source.  An artifact shields a source from that look: any artifact shields a source that is missing,
and an artifact that is newer shields one that is too large, unless its contents are passed over.
-/

namespace ManifestTree

namespace Build

/-- A source is turned away: it is missing, or it has too many bytes. -/
def Rejection.isTurnedAway : Rejection → Bool
  | .unreadable _ e => e.fault = .missing
  | .tooLarge _ _ _ => true
  | _ => false

/-- The artifact is a file that holds no tree, and a build passes it over. -/
def PassesOver (s : FileStore) (artifact : Path) : Prop :=
  ∃ bytes f, s.read artifact = .ok bytes ∧ Artifact.ofFile bytes = .error f ∧ f.isHarmless

/-- With this artifact, a build does not come to look at the source: the artifact is there, and if
the source is there too, then the artifact is newer and is not passed over. -/
def Shields (s : FileStore) (artifact source : Path) : Prop :=
  ∃ stored, s.status artifact = .ok stored ∧
    ∀ current, s.status source = .ok current →
      current.modified < stored.modified ∧ ¬ PassesOver s artifact

/-- An artifact shields its source just if it takes the place of the source or stops the build. -/
theorem shields_iff_kept {s : FileStore} {artifact source : Path} :
    Shields s artifact source ↔
      (∃ m, kept s source artifact = .tree m) ∨ ∃ f, kept s source artifact = .failed f := by
  unfold Shields PassesOver kept
  cases hartifact : s.status artifact with
  | error e => simp
  | ok stored =>
    cases hsource : s.status source with
    | error e => simp
    | ok current =>
      by_cases hle : stored.modified ≤ current.modified
      · simp [hle]
      · cases hread : s.read artifact with
        | error e => simp [hle, Int.not_le.mp hle]
        | ok bytes =>
          cases hfile : Artifact.ofFile bytes with
          | ok m => simp [hle, Int.not_le.mp hle, hfile]
          | error f =>
            by_cases hharmless : f.isHarmless
            · simp [hle, hfile, hharmless]
            · simp [hle, Int.not_le.mp hle, hfile, hharmless]

theorem readSource_of_turnedAway {s : FileStore} {key : Text} {p source : Path}
    {limit : Option Int} {artifact : Option Path} {r : Rejection} (hr : r.isTurnedAway)
    (h : (parseSource s key p limit artifact).result = .error (.rejected source r)) :
    readSource s key p limit = .error r := by
  unfold parseSource at h
  cases hread : readSource s key p limit with
  | error e =>
    simp only [hread, Except.error.injEq, Fault.rejected.injEq] at h
    rw [h.2]
  | ok text =>
    simp only [hread] at h
    cases hparse : parseText key p text with
    | error f =>
      simp only [hparse, Except.error.injEq] at h
      subst h
      unfold parseText at hparse
      split at hparse
      · cases hparse
      · cases hparse
        cases hr
      · next hf =>
        cases hparse
    | ok m =>
      simp only [hparse] at h
      unfold keep at h
      split at h
      · cases h
      · split at h
        · cases h
        · cases h

/-- What takes the place of a source is a file that is newer and holds the tree. -/
theorem kept_tree {s : FileStore} {source artifact : Path} {m : Node}
    (h : kept s source artifact = .tree m) :
    ∃ current bytes t, s.status source = .ok current ∧ s.status artifact = .ok (.file bytes t) ∧
      current.modified < t ∧ Artifact.ofFile bytes = .ok m := by
  unfold kept at h
  split at h
  · cases h
  next stored hstored =>
  split at h
  · cases h
  next current hcurrent =>
  split at h
  · cases h
  next hnewer =>
  cases stored with
  | directory t => simp [FileStore.read, hstored] at h
  | file bytes t =>
    rw [FileStore.read_of_status hstored] at h
    refine ⟨current, bytes, t, hcurrent, hstored, Int.not_le.mp hnewer, ?_⟩
    dsimp only at h
    split at h
    · next hm => rw [hm, Kept.tree.inj h]
    · split at h <;> cases h

/-- Why a build cannot go on is never that a source is rejected. -/
theorem kept_failed {s : FileStore} {source artifact p : Path} {f : Fault} {r : Rejection}
    (h : kept s source artifact = .failed f) : f ≠ .rejected p r := by
  rintro rfl
  unfold kept at h
  repeat' split at h
  all_goals cases h

/-- At a missing source, a build that has found an artifact cannot go on. -/
theorem kept_of_missing {s : FileStore} {source artifact : Path} {e : AccessFault}
    (hsource : s.status source = .error e) (hartifact : s.contains artifact) :
    kept s source artifact = .failed (.inaccessible ⟨e, source⟩) := by
  unfold FileStore.contains at hartifact
  unfold kept
  cases h : s.status artifact with
  | error e' => simp [h, Except.toOption] at hartifact
  | ok stored => simp [hsource]

/-- What comes of a source that would be turned away: the tree that takes its place, the failure at
its artifact, or the rejection. -/
theorem sourceTree_turnedAway {s : FileStore} {settings : Settings} {directory source : Path}
    {key : Text} {r : Rejection} (hdirectory : settings.buildDirectory = some directory)
    (hsource : readSource s key source settings.maxSourceBytes = .error r) :
    let found := kept s source (Artifact.location key directory)
    let run := sourceTree s key source settings
    (∃ m, found = .tree m ∧ run = ⟨s, [.reusing key], .ok m⟩) ∨
      (∃ f, found = .failed f ∧ run = ⟨s, [], .error f⟩) ∨
      (∀ m, found ≠ .tree m) ∧ (∀ f, found ≠ .failed f) ∧ run.store = s ∧
        run.result = .error (.rejected source r) := by
  intro found run
  have hfresh (place : Option Path) : parseSource s key source settings.maxSourceBytes place =
      ⟨s, [], .error (.rejected source r)⟩ := by
    simp [parseSource, hsource]
  have hrun : run = sourceTree s key source settings := rfl
  unfold sourceTree at hrun
  simp only [hdirectory, hfresh] at hrun
  cases hkept : kept s source (Artifact.location key directory) with
  | nothing =>
    rw [hkept] at hrun
    refine .inr (.inr ⟨fun m h => ?_, fun f h => ?_, ?_, ?_⟩)
    · cases hkept.symm.trans h
    · cases hkept.symm.trans h
    · rw [hrun]
    · rw [hrun]
  | tree m =>
    rw [hkept] at hrun
    exact .inl ⟨m, hkept, hrun⟩
  | failed f =>
    rw [hkept] at hrun
    exact .inr (.inl ⟨f, hkept, hrun⟩)
  | unusable f =>
    rw [hkept] at hrun
    refine .inr (.inr ⟨fun m h => ?_, fun f h => ?_, ?_, ?_⟩)
    · cases hkept.symm.trans h
    · cases hkept.symm.trans h
    · rw [hrun]
    · rw [hrun]

end Build

/-- A build of a source that is turned away without artifacts.  With artifacts it changes nothing
either, and it turns the source away for the same reason just if no artifact shields the source.
It answers a tree only from an artifact that is newer than a source that is there, and it fails at a
missing source that has an artifact. -/
theorem FileStore.build_turnedAway {s : FileStore} {settings : Build.Settings}
    {directory source : Path} {key : Text} {r : Build.Rejection}
    (hdirectory : settings.buildDirectory = some directory)
    (hkey : Build.key? s settings.root source = some key)
    (hplain : (s.build settings.plain [source]).result = .error (.rejected source r))
    (hr : r.isTurnedAway) :
    let artifact := Artifact.location key directory
    let run := s.build settings [source]
    run.store = s ∧
    (run.result = .error (.rejected source r) ↔ ¬ Build.Shields s artifact source) ∧
    (∀ p r', run.result = .error (.rejected p r') → p = source ∧ r' = r) ∧
    (∀ trees, run.result = .ok trees →
      ∃ m current bytes t, trees = [(key, m)] ∧ s.status source = .ok current ∧
        s.status artifact = .ok (.file bytes t) ∧ current.modified < t ∧
        Artifact.ofFile bytes = .ok m) ∧
    ∀ e, s.status source = .error e → s.contains artifact →
      run.result = .error (.inaccessible ⟨e, source⟩) := by
  intro artifact run
  have hkey' : Build.key? s settings.plain.root source = some key := hkey
  have hsource : Build.readSource s key source settings.maxSourceBytes = .error r := by
    rw [Build.build_single hkey', Build.Run.alone_error] at hplain
    exact Build.readSource_of_turnedAway hr hplain
  have hcases := Build.sourceTree_turnedAway hdirectory hsource
  have hrun : run = (Build.sourceTree s key source settings).alone key := Build.build_single hkey
  rw [hrun, Build.shields_iff_kept]
  rcases hcases with ⟨m, hkept, htree⟩ | ⟨f, hkept, htree⟩ | ⟨htrees, hfails, hstore, htree⟩
  · obtain ⟨current, bytes, t, hcurrent, hstored, hnewer, hm⟩ := Build.kept_tree hkept
    rw [htree]
    refine ⟨rfl, ⟨fun h => ?_, fun h => ?_⟩, fun p r' h => ?_, fun trees h => ?_, fun e h => ?_⟩
    · cases h
    · exact absurd (.inl ⟨m, hkept⟩) h
    · cases h
    · cases h
      exact ⟨m, current, bytes, t, rfl, hcurrent, hstored, hnewer, hm⟩
    · rw [hcurrent] at h
      cases h
  · rw [htree]
    refine ⟨rfl, ⟨fun h => ?_, fun h => ?_⟩, fun p r' h => ?_, fun trees h => ?_, fun e he h => ?_⟩
    · cases h
      exact absurd rfl (Build.kept_failed hkept)
    · exact absurd (.inr ⟨f, hkept⟩) h
    · cases h
      exact absurd rfl (Build.kept_failed hkept)
    · cases h
    · rw [Build.kept_of_missing he h] at hkept
      cases hkept
      rfl
  · refine ⟨hstore, ⟨fun _ => ?_, fun _ => ?_⟩, fun p r' h => ?_, fun trees h => ?_,
      fun e he h => ?_⟩
    · rintro (⟨m, hm⟩ | ⟨f, hf⟩)
      · exact htrees m hm
      · exact hfails f hf
    · rw [Build.Run.alone_error, htree]
    · rw [Build.Run.alone_error, htree] at h
      cases h
      exact ⟨rfl, rfl⟩
    · obtain ⟨m, hm, -⟩ := Build.Run.alone_ok.mp h
      rw [htree] at hm
      cases hm
    · exact absurd (Build.kept_of_missing he h) (hfails _)

/-- A build that allows sources of five bytes. -/
def Build.Settings.cramped : Build.Settings := { cachedSettings with maxSourceBytes := some 5 }

set_option maxRecDepth 2000 in
/-- A newer artifact that is no JSON does not shield a source that is too large. -/
theorem FileStore.build_turnedAway_notJson :
    ∃ s source r, s = cachedProject [0x7B] ∧ source = Path.ofString "s.pp" ∧
      r = .tooLarge (Text.ofString "s.pp") 12 5 ∧
      (s.build Build.Settings.cramped.plain [source]).result = .error (.rejected source r) ∧
      ¬ Build.Shields s (Artifact.location (Text.ofString "s.pp") (Path.ofString "out")) source ∧
      (s.build Build.Settings.cramped [source]).result = .error (.rejected source r) := by
  have hkey : Build.key? (cachedProject [0x7B]) Build.Settings.cramped.root
      (Path.ofString "s.pp") = some (Text.ofString "s.pp") := by cbv
  have hplain : ((cachedProject [0x7B]).build Build.Settings.cramped.plain
      [Path.ofString "s.pp"]).result =
        .error (.rejected (Path.ofString "s.pp") (.tooLarge (Text.ofString "s.pp") 12 5)) := by cbv
  have hartifact : (cachedProject [0x7B]).read
      (Artifact.location (Text.ofString "s.pp") (Path.ofString "out")) = .ok [0x7B] := by cbv
  have hsource : (cachedProject [0x7B]).status (Path.ofString "s.pp") =
      .ok (.file (Utf8.encode "include base".toList) 1) := by cbv
  have hfile : Artifact.ofFile [0x7B] = .error (.notAnArtifact .notJson) := by cbv
  have hshields : ¬ Build.Shields (cachedProject [0x7B])
      (Artifact.location (Text.ofString "s.pp") (Path.ofString "out")) (Path.ofString "s.pp") := by
    rintro ⟨stored, -, h⟩
    exact (h _ hsource).2 ⟨_, _, hartifact, hfile, rfl⟩
  have hdirectory : Build.Settings.cramped.buildDirectory = some (Path.ofString "out") := rfl
  have hturned := FileStore.build_turnedAway hdirectory hkey hplain rfl
  exact ⟨_, _, _, rfl, rfl, rfl, hplain, hshields, hturned.2.1.mpr hshields⟩

set_option maxRecDepth 2000 in
/-- The artifact of a source shields it when the limit is lowered, and when the source is removed:
the first build answers the tree, and the second fails at the source without turning it away. -/
theorem FileStore.build_shielded :
    ∃ m s source key, s = cachedProject (Artifact.toFile m) ∧ source = Path.ofString "s.pp" ∧
      key = Text.ofString "s.pp" ∧ Node.parse (Text.ofString "include base") = .ok m ∧
      (s.build Build.Settings.cramped.plain [source]).result =
        .error (.rejected source (.tooLarge key 12 5)) ∧
      (s.build Build.Settings.cramped [source]).result = .ok [(key, m)] ∧
      ∃ s', s.remove source = .ok s' ∧
        (s'.build cachedSettings.plain [source]).result =
          .error (.rejected source (.unreadable key ⟨.missing, source⟩)) ∧
        (s'.build cachedSettings [source]).result =
          .error (.inaccessible ⟨.missing, source⟩) := by
  have hrun : (Node.parse (Text.ofString "include base")).toOption.map (fun _ => ()) =
      some () := by cbv
  obtain ⟨m, hm, -⟩ := exists_ok_of_map hrun
  have hfile : Artifact.ofFile (Artifact.toFile m) = .ok m := Artifact.ofFile_toFile hm
  refine ⟨m, _, _, _, rfl, rfl, rfl, hm, ?_⟩
  generalize Artifact.toFile m = bytes at hfile
  refine ⟨?_, ?_, ?_⟩
  · cbv
  · have hkey : Build.key? (cachedProject bytes) Build.Settings.cramped.root
        (Path.ofString "s.pp") = some (Text.ofString "s.pp") := by cbv
    have hsource : (cachedProject bytes).status (Path.ofString "s.pp") =
        .ok (.file (Utf8.encode "include base".toList) 1) := by cbv
    have hartifact : (cachedProject bytes).status
        (Artifact.location (Text.ofString "s.pp") (Path.ofString "out")) =
          .ok (.file bytes 2) := by cbv
    have hdirectory : Build.Settings.cramped.buildDirectory = some (Path.ofString "out") := rfl
    rw [Build.build_single hkey,
      Build.sourceTree_newer_ok hdirectory hsource hartifact (by decide) hfile]
    rfl
  · refine ⟨_, rfl, ?_, ?_⟩
    · cbv
    · cbv

end ManifestTree
