import ManifestTree.Proofs.ArtifactConsistency

/-!
# Builds over time

A project is changed and built again and again: sources are written and removed, time passes, and
builds write artifacts.  However it went, a build with artifacts answers what a build without them
does.
-/

namespace ManifestTree

/-! ## Histories -/

/-- The store after some time. -/
def FileStore.wait (s : FileStore) (time : Nat) : FileStore := { s with clock := s.clock + time }

/-- Time does not change what is where. -/
theorem FileStore.status_wait (s : FileStore) (time : Nat) (p : Path) :
    (s.wait time).status p = s.status p := by
  have hfollow (l : Location) (names : List FileName) :
      (s.wait time).follow l names = s.follow l names := by
    induction names generalizing l with
    | nil => rfl
    | cons n names ih =>
      simp only [follow, ih]
      rfl
  unfold status locate
  rw [hfollow]
  rfl

namespace Build

/-- Adds the trees of further sources to those of a build, with some time passing before each. -/
def addTreesOver (settings : Settings) (s : FileStore) (trees : Trees) :
    List (Nat × Path) → Run Trees
  | [] => ⟨s, [], .ok trees⟩
  | (time, source) :: sources =>
    match addTrees settings (s.wait time) trees [source] with
    | ⟨s, notices, .error f⟩ => ⟨s, notices, .error f⟩
    | ⟨s, notices, .ok trees⟩ =>
      let run := addTreesOver settings s trees sources
      { run with notices := notices ++ run.notices }

end Build

/-- A build in which some time passes before each source. -/
def FileStore.buildOver (s : FileStore) (settings : Build.Settings) (sources : List (Nat × Path)) :
    Build.Run Build.Trees :=
  Build.addTreesOver settings s [] sources

namespace Build

/-- What happens in a project. -/
inductive Event where
  /-- A source is written, whether or not it was there. -/
  | write (source : Path) (bytes : List UInt8)
  /-- A source is removed. -/
  | remove (source : Path)
  /-- Time passes. -/
  | wait (time : Nat)
  /-- Sources are built. -/
  | build (sources : List (Nat × Path))

/-- The sources that an event is about. -/
def Event.sources : Event → List Path
  | .write source _ | .remove source => [source]
  | .wait _ => []
  | .build sources => sources.map Prod.snd

/-- The store after an event. -/
def Event.apply (settings : Settings) (s : FileStore) : Event → FileStore
  | .write source bytes => (s.writeWithParents source bytes).store
  | .remove source => (s.remove source).toOption.getD s
  | .wait time => s.wait time
  | .build sources => (s.buildOver settings sources).store

/-- The store after a history. -/
def after (settings : Settings) (s : FileStore) (history : List Event) : FileStore :=
  history.foldl (Event.apply settings) s

/-! ## Builds in which no time passes -/

theorem addTreesOver_still (settings : Settings) (sources : List Path) (s : FileStore)
    (trees : Trees) :
    addTreesOver settings s trees (sources.map (0, ·)) = addTrees settings s trees sources := by
  induction sources generalizing s trees with
  | nil => rfl
  | cons source sources ih =>
    have hwait : s.wait 0 = s := by simp [FileStore.wait]
    rw [addTrees_cons, List.map_cons, addTreesOver, hwait]
    generalize addTrees settings s trees [source] = run
    obtain ⟨s', notices, result⟩ := run
    cases result <;> simp only [ih]

/-- A build in which no time passes is a build. -/
theorem buildOver_still (s : FileStore) (settings : Settings) (sources : List Path) :
    s.buildOver settings (sources.map (0, ·)) = s.build settings sources :=
  addTreesOver_still settings sources s []

/-! ## What each event keeps -/

namespace Consistent

variable {settings : Settings} {directory : Path} {sources : List Path} {s : FileStore}

theorem wait (h : Consistent settings directory sources s) (time : Nat) :
    Consistent settings directory sources (s.wait time) where
  sound := ⟨h.sound.start, h.sound.parents⟩
  layout := h.layout.congr rfl
  free := h.free
  room := h.room
  past p hp a ha bytes t hfile := by
    have ht : t ≤ s.clock := h.past p hp a ha bytes t hfile
    show t ≤ s.clock + time
    omega
  current := h.current

theorem write (h : Consistent settings directory sources s) {p : Path} (hp : p ∈ sources)
    (bytes : List UInt8) :
    Consistent settings directory sources (s.writeWithParents p bytes).store := by
  obtain ⟨mid, hgrows, hsound, hcases⟩ := s.writeWithParents_cases p bytes
  have hway : s.trailOf p.parent ⊆ s.trailOf p := s.trailOf_parent_subset p
  have hmid : Consistent settings directory sources mid :=
    h.grows hgrows (hsound h.sound) fun q hq a ha hmem =>
      h.layout.artifact_notMem_trail hq hp ha (hway hmem)
  rcases hcases with hstore | hwrite
  · rwa [hstore]
  · obtain ⟨l, hplace, -, hsame, hfiles⟩ := FileStore.write_ok hwrite
    obtain rfl := FileStore.place_eq hplace
    refine hmid.source hp hsame (hmid.sound.write hwrite) (fun l hl => by rw [hfiles, if_neg hl])
      fun f hf => ?_
    rw [hfiles, if_pos rfl] at hf
    cases hf
    rfl

theorem remove (h : Consistent settings directory sources s) {p : Path} (hp : p ∈ sources) :
    Consistent settings directory sources ((s.remove p).toOption.getD s) := by
  cases hremove : s.remove p with
  | error f => exact h
  | ok s' =>
    obtain ⟨l, hlocate, hsame, hfiles⟩ := FileStore.remove_ok hremove
    obtain rfl := FileStore.locate_eq hlocate
    show Consistent settings directory sources s'
    refine h.source hp hsame (h.sound.remove hremove) (fun l hl => by rw [hfiles, if_neg hl])
      fun f hf => ?_
    rw [hfiles, if_pos rfl] at hf
    cases hf

end Consistent

/-! ## Builds of many sources -/

theorem addTreesOver_cons (settings : Settings) (s : FileStore) (trees : Trees) (time : Nat)
    (p : Path) (sources : List (Nat × Path)) :
    (addTreesOver settings s trees ((time, p) :: sources)).result =
      (match key? s settings.root p with
      | none => .error (.rejected p (.outside settings.root))
      | some key =>
        match (sourceTree (s.wait time) key p settings).result with
        | .error f => .error f
        | .ok m =>
          (addTreesOver settings (sourceTree (s.wait time) key p settings).store
            (trees.set key m) sources).result) ∧
    (addTreesOver settings s trees ((time, p) :: sources)).store =
      match key? s settings.root p with
      | none => s.wait time
      | some key =>
        match (sourceTree (s.wait time) key p settings).result with
        | .error _ => (sourceTree (s.wait time) key p settings).store
        | .ok m =>
          (addTreesOver settings (sourceTree (s.wait time) key p settings).store
            (trees.set key m) sources).store := by
  have hkey : key? (s.wait time) settings.root p = key? s settings.root p := key?_congr rfl _ _
  rw [addTreesOver, addTrees, hkey]
  cases key? s settings.root p with
  | none => exact ⟨rfl, rfl⟩
  | some key =>
    dsimp only
    generalize sourceTree (s.wait time) key p settings = run
    obtain ⟨s', notices, result⟩ := run
    cases result <;> exact ⟨rfl, rfl⟩

namespace Consistent

variable {settings : Settings} {directory : Path} {sources : List Path} {s s' : FileStore}

/-- A build keeps sources and artifacts in agreement, whether or not it fails. -/
theorem addTreesOver (h : Consistent settings directory sources s)
    (hdirectory : settings.buildDirectory = some directory) {asked : List (Nat × Path)}
    (hasked : ∀ x ∈ asked, x.2 ∈ sources) (trees : Trees) :
    Consistent settings directory sources (Build.addTreesOver settings s trees asked).store := by
  induction asked generalizing s trees with
  | nil => exact h
  | cons x asked ih =>
    obtain ⟨time, p⟩ := x
    obtain ⟨hp, hrest⟩ := List.forall_mem_cons.mp hasked
    rw [(addTreesOver_cons settings s trees time p asked).2]
    cases hkey : key? s settings.root p with
    | none => exact h.wait time
    | some key =>
      have hstep := ((h.wait time).sourceTree hp ((key?_congr rfl _ _).trans hkey) hdirectory).1
      dsimp only
      split
      · exact hstep
      · exact ih hstep hrest _

/-- Every event in a project keeps sources and artifacts in agreement. -/
theorem apply (h : Consistent settings directory sources s)
    (hdirectory : settings.buildDirectory = some directory) {event : Event}
    (hevent : ∀ p ∈ event.sources, p ∈ sources) :
    Consistent settings directory sources (event.apply settings s) := by
  cases event with
  | write p bytes => exact h.write (hevent p (List.mem_singleton_self p)) bytes
  | remove p => exact h.remove (hevent p (List.mem_singleton_self p))
  | wait time => exact h.wait time
  | build asked =>
    exact h.addTreesOver hdirectory (fun x hx => hevent x.2 (List.mem_map_of_mem hx)) []

/-- So does every history. -/
theorem after (h : Consistent settings directory sources s)
    (hdirectory : settings.buildDirectory = some directory) {history : List Event}
    (hhistory : ∀ event ∈ history, ∀ p ∈ event.sources, p ∈ sources) :
    Consistent settings directory sources (Build.after settings s history) := by
  induction history generalizing s with
  | nil => exact h
  | cons event history ih =>
    obtain ⟨hevent, hrest⟩ := List.forall_mem_cons.mp hhistory
    exact ih (h.apply hdirectory hevent) hrest

/-- A build with artifacts comes to what a build without them does. -/
theorem addTreesOver_result (h : Consistent settings directory sources s)
    (hdirectory : settings.buildDirectory = some directory) (hroom : s.HasRoom directory)
    {asked : List (Nat × Path)} (hasked : ∀ x ∈ asked, x.2 ∈ sources ∧ s.isFile x.2)
    (trees : Trees) :
    (Build.addTreesOver settings s trees asked).result =
      (addTrees settings.plain s trees (asked.map Prod.snd)).result := by
  induction asked generalizing s trees with
  | nil => rfl
  | cons x asked ih =>
    obtain ⟨time, p⟩ := x
    obtain ⟨⟨hp, hfile⟩, hrest⟩ := List.forall_mem_cons.mp hasked
    dsimp only at hp hfile
    rw [(addTreesOver_cons settings s trees time p asked).1, List.map_cons, addTrees_result]
    show _ = match key? s settings.root p with | none => _ | some key => _
    cases hkey : key? s settings.root p with
    | none => rfl
    | some key =>
      obtain ⟨text, u, hstatus⟩ := FileStore.isFile_iff.mp hfile
      have hwait := h.wait time
      have hkey' : key? (s.wait time) settings.root p = some key := (key?_congr rfl _ _).trans hkey
      have hstatus' : (s.wait time).status p = .ok (.file text u) :=
        (s.status_wait time p).trans hstatus
      have hresult := hwait.sourceTree_result hp hkey' hdirectory hroom hstatus'
      obtain ⟨hnext, hext⟩ := hwait.sourceTree hp hkey' hdirectory
      have hfiles : ∀ x ∈ asked, (s.wait time).isFile x.2 := fun x hx => by
        rw [FileStore.isFile, s.status_wait]
        exact (hrest x hx).2
      have hstay : ∀ x ∈ asked,
          (Build.sourceTree (s.wait time) key p settings).store.status x.2 = s.status x.2 :=
        fun x hx =>
          (hwait.status_eq hext (hrest x hx).1 (hfiles x hx)).trans (s.status_wait time x.2)
      have hplain : Build.sourceTree s key p settings.plain =
          Build.parseSource s key p settings.maxSourceBytes none := rfl
      rw [parseSource_none_congr (hstatus'.trans hstatus.symm)] at hresult
      dsimp only
      rw [hresult, hplain, parseSource_none_store]
      cases (Build.parseSource s key p settings.maxSourceBytes none).result with
      | error f => rfl
      | ok m =>
        dsimp only
        rw [ih hnext (hwait.hasRoom hext hroom hp hkey') (fun x hx => ⟨(hrest x hx).1, by
          rw [FileStore.isFile, hstay x hx]; exact (hrest x hx).2⟩) _]
        have hwd : (Build.sourceTree (s.wait time) key p settings).store.workingDirectory =
          s.workingDirectory := hext.workingDirectory
        refine addTrees_plain_congr settings hwd (fun q hq => ?_) _
        obtain ⟨x, hx, rfl⟩ := List.mem_map.mp hq
        exact hstay x hx

end Consistent

/-! ## The start -/

/-- A project before its first build: there is nothing in the place of an artifact, and below the
build directory there is no file in the place of a directory that an artifact needs. -/
structure Untouched (s : FileStore) (root directory : Path) (sources : List Path) : Prop where
  sound : s.Sound
  layout : Layout s root directory sources
  empty : ∀ p ∈ sources, ∀ a, artifactOf? s root directory p = some a → s.find? a = none
  room : ∀ p ∈ sources, ∀ key, key? s root p = some key →
    ∀ l ∈ s.trailOf (Artifact.folder key directory), l.Below (s.locationOf directory) →
      s.fileAt? l = none

theorem Untouched.consistent {s : FileStore} {settings : Settings} {directory : Path}
    {sources : List Path} (h : Untouched s settings.root directory sources) :
    Consistent settings directory sources s where
  sound := h.sound
  layout := h.layout
  free p hp a ha := (FileStore.find?_eq_none.mp (h.empty p hp a ha)).2
  room := h.room
  past p hp a ha bytes t hfile := by
    rw [(FileStore.find?_eq_none.mp (h.empty p hp a ha)).1] at hfile
    cases hfile
  current p hp a ha bytes t hfile := by
    rw [(FileStore.find?_eq_none.mp (h.empty p hp a ha)).1] at hfile
    cases hfile

/-- A project with one source. -/
theorem Untouched.single {s : FileStore} {root directory p : Path} (key : Text)
    (hsound : s.Sound) (hstart : s.CleanStart) (hclean : p.Clean) (hkey : key? s root p = some key)
    (houtside : ∀ l ∈ s.trailOf p, ¬ l.Below (s.locationOf directory))
    (hapart : s.locationOf (Artifact.location key directory) ∉
      s.trailOf (Artifact.folder key directory))
    (hempty : s.find? (s.locationOf (Artifact.location key directory)) = none)
    (hroom : ∀ l ∈ s.trailOf (Artifact.folder key directory), l.Below (s.locationOf directory) →
      s.fileAt? l = none) : Untouched s root directory [p] := by
  have hartifact := artifactOf?_of_key hkey directory
  refine ⟨hsound, ⟨hstart, ?_, ?_, ?_⟩, ?_, ?_⟩
  · exact List.forall_mem_singleton.mpr hclean
  · exact List.forall_mem_singleton.mpr houtside
  · rintro q hq a ha r hr k hk
    rw [List.mem_singleton.mp hq, hartifact] at ha
    rw [List.mem_singleton.mp hr, hkey] at hk
    cases ha
    cases hk
    exact hapart
  · rintro q hq a ha
    rw [List.mem_singleton.mp hq, hartifact] at ha
    cases ha
    exact hempty
  · rintro q hq k hk
    rw [List.mem_singleton.mp hq, hkey] at hk
    cases hk
    exact hroom

end Build

/-- After any history of a project, a build of sources that are there answers what the build
without artifacts does, be it trees or a failure, if the build directory is one or can be made. -/
theorem FileStore.build_transparent {s : FileStore} {settings : Build.Settings} {directory : Path}
    {sources : List Path} (hdirectory : settings.buildDirectory = some directory)
    (hstart : Build.Untouched s settings.root directory sources) {history : List Build.Event}
    (hhistory : ∀ event ∈ history, ∀ p ∈ event.sources, p ∈ sources) {asked : List (Nat × Path)}
    (hasked : ∀ x ∈ asked, x.2 ∈ sources ∧ (Build.after settings s history).isFile x.2)
    (hroom : (Build.after settings s history).HasRoom directory) :
    ((Build.after settings s history).buildOver settings asked).result =
      ((Build.after settings s history).build settings.plain (asked.map Prod.snd)).result :=
  (hstart.consistent.after hdirectory hhistory).addTreesOver_result hdirectory hroom hasked []

/-- A directory with nothing in it. -/
def FileStore.emptyProject : FileStore :=
  { entries := [([Text.ofString "p"], .directory 0)]
    workingDirectory := [Text.ofString "p"]
    clock := 0 }

/-- Artifacts are kept in a directory of the project. -/
def Build.Settings.keeping (directory : String) : Build.Settings :=
  ⟨Path.here, some (Path.ofString directory), none⟩

/-- A source is written, built, broken, built in vain, mended and built again. -/
def Build.mending (source : Path) : List Build.Event :=
  [.write source (Utf8.encode ['1']), .build [(1, source)], .write source (Utf8.encode ['=']),
    .build [(0, source)], .wait 1, .write source (Utf8.encode ['2']), .build [(1, source)]]

set_option maxRecDepth 4000 in
/-- The next build takes the tree of the mended source from its artifact and answers what a build
without artifacts does. -/
theorem FileStore.build_transparent_mended : ∃ s settings source key m trees,
    settings = Build.Settings.keeping "out" ∧ source = Path.ofString "s.pp" ∧
    key = Text.ofString "s.pp" ∧
    s = Build.after settings emptyProject (Build.mending source) ∧
    Build.kept s source (Artifact.location key (Path.ofString "out")) = .tree m ∧
    (s.build settings.plain [source]).result = .ok trees ∧ trees.map Prod.fst = [key] ∧
    (s.buildOver settings [(0, source)]).result = (s.build settings.plain [source]).result := by
  have hstart : Build.Untouched emptyProject Path.here (Path.ofString "out")
      [Path.ofString "s.pp"] := by
    refine .single (Text.ofString "s.pp") ?_ ?_ ?_ ?_ ?_ ?_ ?_ ?_
    · exact sound_of_entries (by decide) (by decide)
    · exact ⟨by decide, by decide⟩
    all_goals decide
  have hhistory : ∀ event ∈ Build.mending (Path.ofString "s.pp"), ∀ p ∈ event.sources,
      p ∈ [Path.ofString "s.pp"] := by
    simp [Build.mending, Build.Event.sources]
  obtain ⟨s, hs⟩ : ∃ s, s = Build.after (Build.Settings.keeping "out") emptyProject
    (Build.mending (Path.ofString "s.pp")) := ⟨_, rfl⟩
  have hview : (s.isFile (Path.ofString "s.pp"),
      (s.trailOf (Path.ofString "out")).map s.fileAt?,
      Build.key? s Path.here (Path.ofString "s.pp"),
      (s.status (Path.ofString "s.pp")).toOption.map Entry.modified,
      (s.status (Artifact.location (Text.ofString "s.pp")
        (Path.ofString "out"))).toOption.map Entry.modified,
      (s.build (Build.Settings.keeping "out").plain
        [Path.ofString "s.pp"]).result.toOption.map (·.map Prod.fst)) =
      (true, [none, none], some (Text.ofString "s.pp"), some 2, some 3,
        some [Text.ofString "s.pp"]) := by
    rw [hs]
    cbv
  simp only [Prod.mk.injEq] at hview
  obtain ⟨hfile, hroom, hkey, hsource, hartifact, hresult⟩ := hview
  obtain ⟨trees, htrees, hkeys⟩ := exists_ok_of_map hresult
  obtain ⟨text, u, hstatus⟩ := isFile_iff.mp hfile
  obtain ⟨stored, hstored, hmodified⟩ := exists_ok_of_map hartifact
  obtain rfl : u = 2 := by simpa [hstatus, Except.toOption, Entry.modified] using hsource
  have hconsistent : Build.Consistent (Build.Settings.keeping "out") (Path.ofString "out")
      [Path.ofString "s.pp"] s := by
    rw [hs]
    exact Build.Consistent.after (hstart.consistent) rfl hhistory
  have hkept : ∃ m, Build.kept s (Path.ofString "s.pp")
      (Artifact.location (Text.ofString "s.pp") (Path.ofString "out")) = .tree m := by
    rcases hconsistent.kept (List.mem_singleton_self _) hkey hstatus with h | ⟨-, m, h, -⟩
    · exact absurd h (Build.kept_ne_nothing hstatus hstored (by
        rw [hmodified]
        show (2 : Int) < 3
        decide))
    · exact ⟨m, h⟩
  obtain ⟨m, hm⟩ := hkept
  refine ⟨s, _, _, _, m, trees, rfl, rfl, rfl, hs, hm, htrees, hkeys, ?_⟩
  rw [hs] at hfile hroom ⊢
  refine build_transparent rfl hstart hhistory
    (List.forall_mem_singleton.mpr ⟨List.mem_singleton_self _, hfile⟩) fun l hl => ?_
  have hmem := List.mem_map_of_mem (f := (Build.after (Build.Settings.keeping "out") emptyProject
    (Build.mending (Path.ofString "s.pp"))).fileAt?) hl
  rw [hroom] at hmem
  simpa using hmem

set_option maxRecDepth 4000 in
/-- Where the build directory would have to be below a source, there is nothing else in the way of
the artifacts, and yet a build with them fails on a source that one without them parses. -/
theorem FileStore.build_blocked : ∃ settings source s trees,
    settings = Build.Settings.keeping "a/b" ∧ source = Path.ofString "a" ∧
    Build.Untouched emptyProject settings.root (Path.ofString "a/b") [source] ∧
    s = Build.after settings emptyProject [.write source (Utf8.encode "include base".toList)] ∧
    s.isFile source ∧
    (s.build settings [source]).result =
      .error (.inaccessible ⟨.notADirectory, Path.ofString "a/b"⟩) ∧
    (s.build settings.plain [source]).result = .ok trees := by
  have hstart : Build.Untouched emptyProject Path.here (Path.ofString "a/b")
      [Path.ofString "a"] := by
    refine .single (Text.ofString "a") ?_ ?_ ?_ ?_ ?_ ?_ ?_ ?_
    · exact sound_of_entries (by decide) (by decide)
    · exact ⟨by decide, by decide⟩
    all_goals decide
  obtain ⟨s, hs⟩ : ∃ s, s = Build.after (Build.Settings.keeping "a/b") emptyProject
    [.write (Path.ofString "a") (Utf8.encode "include base".toList)] := ⟨_, rfl⟩
  have hfile : s.isFile (Path.ofString "a") = true := by
    rw [hs]
    cbv
  have hblocked : (s.build (Build.Settings.keeping "a/b") [Path.ofString "a"]).result =
      .error (.inaccessible ⟨.notADirectory, Path.ofString "a/b"⟩) := by
    rw [hs]
    cbv
  have hplain : (s.build (Build.Settings.keeping "a/b").plain
      [Path.ofString "a"]).result.toOption.map (fun _ => ()) = some () := by
    rw [hs]
    cbv
  obtain ⟨trees, htrees, -⟩ := exists_ok_of_map hplain
  exact ⟨_, _, s, trees, rfl, rfl, hstart, hs, hfile, hblocked, htrees⟩

end ManifestTree
