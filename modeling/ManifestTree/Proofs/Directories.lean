import ManifestTree.Proofs.FileFrames

/-!
# Where paths lead and what making directories does

By its names alone a path says to which location it leads, if it leads anywhere, and which locations
it passes on its way there.  Making directories makes some of those, and nothing else changes; it
succeeds when no file stands in one of those places.
-/

namespace ManifestTree

/-! ## Names from a location on -/

/-- The location to which names lead from another: two dots lead to the parent. -/
def Location.via (l : Location) (names : List FileName) : Location :=
  names.foldl (fun reached n => if n = FileName.parent then reached.dropLast else reached ++ [n]) l

/-- The locations that names pass from another on, both ends included. -/
def Location.trail (l : Location) (names : List FileName) : List Location :=
  (List.range (names.length + 1)).map fun n => l.via (names.take n)

namespace Location

@[simp] theorem via_nil (l : Location) : l.via [] = l := rfl

@[simp] theorem via_cons (l : Location) (n : FileName) (names : List FileName) :
    l.via (n :: names) = via (if n = FileName.parent then l.dropLast else l ++ [n]) names := rfl

theorem via_append (l : Location) (ns ms : List FileName) : l.via (ns ++ ms) = (l.via ns).via ms :=
  List.foldl_append

/-- Names without two dots lead down. -/
theorem via_of_proper (l : Location) {names : List FileName} (h : FileName.parent ∉ names) :
    l.via names = l ++ names := by
  induction names generalizing l with
  | nil => simp
  | cons n names ih =>
    simp only [List.mem_cons, not_or] at h
    rw [via_cons, if_neg (Ne.symm h.1), ih _ h.2, List.append_assoc]
    rfl

theorem mem_trail {l m : Location} {names : List FileName} :
    m ∈ l.trail names ↔ ∃ ns, ns <+: names ∧ m = l.via ns := by
  simp only [trail, List.mem_map, List.mem_range]
  constructor
  · rintro ⟨n, -, rfl⟩
    exact ⟨names.take n, List.take_prefix n names, rfl⟩
  · rintro ⟨ns, hns, rfl⟩
    have hlength := hns.length_le
    exact ⟨ns.length, by omega, by rw [← List.prefix_iff_eq_take.mp hns]⟩

theorem mem_trail_self (l : Location) (names : List FileName) : l ∈ l.trail names :=
  mem_trail.mpr ⟨[], List.nil_prefix, rfl⟩

theorem via_mem_trail (l : Location) (names : List FileName) : l.via names ∈ l.trail names :=
  mem_trail.mpr ⟨names, List.prefix_rfl, rfl⟩

/-- The way goes on from where the first name leads. -/
theorem trail_cons_subset (l : Location) (n : FileName) (names : List FileName) :
    (l.via [n]).trail names ⊆ l.trail (n :: names) := by
  intro m hm
  obtain ⟨ns, hns, rfl⟩ := mem_trail.mp hm
  exact mem_trail.mpr ⟨n :: ns, (List.cons_prefix_cons).mpr ⟨rfl, hns⟩, rfl⟩

theorem trail_append_subset (l : Location) (ns ms : List FileName) :
    l.trail ns ⊆ l.trail (ns ++ ms) := by
  intro m hm
  obtain ⟨ks, hks, rfl⟩ := mem_trail.mp hm
  exact mem_trail.mpr ⟨ks, hks.trans (List.prefix_append ns ms), rfl⟩

end Location

namespace FileStore

/-- The location to which a path leads by its names, whether or not anything is there. -/
def locationOf (s : FileStore) (p : Path) : Location := Location.via (s.startOf p) p.names

/-- The locations that a path passes. -/
def trailOf (s : FileStore) (p : Path) : List Location := Location.trail (s.startOf p) p.names

theorem locationOf_congr {s s' : FileStore} (h : s'.workingDirectory = s.workingDirectory)
    (p : Path) : s'.locationOf p = s.locationOf p := by
  simp [locationOf, startOf_congr h]

theorem trailOf_congr {s s' : FileStore} (h : s'.workingDirectory = s.workingDirectory)
    (p : Path) : s'.trailOf p = s.trailOf p := by
  simp [trailOf, startOf_congr h]

theorem locationOf_mem_trailOf (s : FileStore) (p : Path) : s.locationOf p ∈ s.trailOf p :=
  Location.via_mem_trail _ _

theorem locationOf_child (s : FileStore) (p : Path) (n : FileName) :
    s.locationOf (p.child n) =
      if n = FileName.parent then (s.locationOf p).dropLast else s.locationOf p ++ [n] :=
  Location.via_append _ _ _

theorem trailOf_parent_subset (s : FileStore) (p : Path) : s.trailOf p.parent ⊆ s.trailOf p := by
  intro l hl
  obtain ⟨ns, hns, rfl⟩ := Location.mem_trail.mp hl
  exact Location.mem_trail.mpr ⟨ns, hns.trans (List.dropLast_prefix p.names), rfl⟩

/-- A path of names is that of a name in its parent. -/
theorem eq_child_of_ne_nil {p : Path} (h : p.names ≠ []) :
    ∃ n, p = p.parent.child n := by
  refine ⟨p.names.getLast h, ?_⟩
  simp [Path.child, Path.parent, List.dropLast_concat_getLast h]

theorem follow_via {s : FileStore} {l m : Location} {names : List FileName}
    (h : s.follow l names = .ok m) : m = l.via names := by
  induction names generalizing l with
  | nil => cases h; rfl
  | cons n names ih =>
    simp only [follow] at h
    rw [Location.via_cons]
    split at h
    · cases h
    split at h
    · next hn => rw [if_pos hn]; exact ih h
    next hn =>
    rw [if_neg hn]
    split at h
    · exact ih h
    · cases h

/-- A path that leads somewhere leads where its names say. -/
theorem locate_eq {s : FileStore} {p : Path} {l : Location} (h : s.locate p = .ok l) :
    l = s.locationOf p :=
  follow_via h

/-- The file to which a path leads is where the names of the path say. -/
theorem fileAt?_of_status {s : FileStore} {p : Path} {bytes : List UInt8} {t : Int}
    (h : s.status p = .ok (.file bytes t)) : s.fileAt? (s.locationOf p) = some (bytes, t) := by
  obtain ⟨l, hlocate, hfile⟩ := FileStore.status_eq_file.mp h
  rwa [← FileStore.locate_eq hlocate]

/-- Where a file is gone, the paths to other files keep their statuses. -/
theorem status_of_gone {s s' : FileStore} {p : Path} {l : Location} {text : List UInt8} {u : Int}
    (hsame : SameDirectories s s')
    (hfiles : ∀ m, s'.fileAt? m = if m = l then none else s.fileAt? m)
    (h : s.status p = .ok (.file text u)) (hne : s.locationOf p ≠ l) :
    s'.status p = .ok (.file text u) := by
  obtain ⟨k, hk, htext⟩ := status_eq_file.mp h
  obtain rfl := locate_eq hk
  have htext' : s'.fileAt? (s.locationOf p) = some (text, u) := by rw [hfiles, if_neg hne, htext]
  have hsome : (s'.find? (s.locationOf p)).isSome := isSome_find?.mpr (.inl (by simp [htext']))
  refine status_eq_file.mpr ⟨_, ?_, htext'⟩
  exact locate_of_directories hsame.workingDirectory (fun m hm => by rwa [hsame.directories]) hk
    hsome

theorem status_gone {s s' : FileStore} {p : Path} {f : List UInt8 × Int}
    (hsame : SameDirectories s s') (hf : s.fileAt? (s.locationOf p) = some f)
    (hgone : s'.fileAt? (s.locationOf p) = none) : ∃ e, s'.status p = .error e := by
  cases hlocate : s'.locate p with
  | error e => exact ⟨e, by simp [status, hlocate]⟩
  | ok l =>
    have hl : l = s.locationOf p := by
      rw [locate_eq hlocate, locationOf_congr hsame.workingDirectory]
    have hnone : s'.find? l = none := by
      rw [hl]
      refine find?_eq_none.mpr ⟨hgone, ?_⟩
      rw [hsame.directories]
      exact not_isDirectoryAt hf
    exact ⟨.missing, by simp [status, hlocate, hnone]⟩

/-- A path names the place that its names say, in a directory if there are any. -/
theorem place_eq {s : FileStore} {p : Path} {l : Location} (h : s.place p = .ok l) :
    l = s.locationOf p := by
  by_cases hnames : p.names = []
  · have hlast : p.names.getLast? = none := by simp [hnames]
    simp only [place, hlast] at h
    exact locate_eq h
  obtain ⟨n, hn⟩ := eq_child_of_ne_nil hnames
  have hlast : p.names.getLast? = some n := by rw [hn]; simp [Path.child]
  simp only [place, hlast] at h
  split at h
  · cases h
  next d hd =>
  split at h
  · cases h
  obtain rfl := locate_eq hd
  cases h
  rw [hn, locationOf_child, Path.parent_child]

/-! ## Stores that hold together -/

/-- What is anywhere is in a directory, and the working directory is one. -/
structure Sound (s : FileStore) : Prop where
  /-- Paths start in a directory. -/
  start : s.isDirectoryAt s.workingDirectory
  /-- Every entry is in a directory. -/
  parents : ∀ l, (s.find? l).isSome → s.isDirectoryAt l.dropLast

/-- A store holds together if the locations of its entries are in directories. -/
theorem sound_of_entries {s : FileStore} (hstart : s.isDirectoryAt s.workingDirectory)
    (h : ∀ x ∈ s.entries, s.isDirectoryAt x.1.dropLast) : s.Sound := by
  refine ⟨hstart, fun l hl => ?_⟩
  cases l with
  | nil => exact isDirectoryAt_root s
  | cons n l =>
    obtain ⟨e, he⟩ := Option.isSome_iff_exists.mp hl
    obtain ⟨before, after, hentries, -⟩ := List.lookup_eq_some_iff.mp he
    exact h (n :: l, e) (by rw [hentries]; simp)

theorem Sound.startOf {s : FileStore} (hs : s.Sound) (p : Path) :
    s.isDirectoryAt (s.startOf p) := by
  unfold FileStore.startOf
  split
  · exact hs.start
  · exact isDirectoryAt_root s

theorem Sound.dropLast {s : FileStore} (hs : s.Sound) {l : Location} (hl : s.isDirectoryAt l) :
    s.isDirectoryAt l.dropLast :=
  hs.parents l (isSome_find?.mpr (.inr hl))

/-- A place where nothing is yet is in a directory. -/
theorem Sound.place_new {s : FileStore} (hs : s.Sound) {p : Path} {l : Location}
    (h : s.place p = .ok l) (hl : s.find? l = none) : s.isDirectoryAt l.dropLast := by
  have hnone := (find?_eq_none.mp hl).2
  unfold place at h
  split at h
  · next hlast =>
    have hnames : p.names = [] := List.getLast?_eq_none_iff.mp hlast
    simp only [locate, hnames, follow, Except.ok.injEq] at h
    exact absurd (h ▸ hs.startOf p) hnone
  · next n hlast =>
    split at h
    · cases h
    next d hd =>
    split at h
    · cases h
    next hdir =>
    replace hdir : s.isDirectoryAt d := by simpa using hdir
    cases h
    split at hnone
    · exact absurd (hs.dropLast hdir) hnone
    · next hn => simpa [hn] using hdir

/-- A store holds together if each of its locations holds what another store that holds together
has there, or is a new entry in a directory. -/
theorem Sound.of_entries {s s' : FileStore} (hs : s.Sound)
    (hwd : s'.workingDirectory = s.workingDirectory)
    (hdir : ∀ l, s.isDirectoryAt l → s'.isDirectoryAt l)
    (hnew : ∀ l, (s'.find? l).isSome → (s.find? l).isSome ∨ s.isDirectoryAt l.dropLast) :
    s'.Sound := by
  refine ⟨by rw [hwd]; exact hdir _ hs.start, fun l hl => hdir _ ?_⟩
  rcases hnew l hl with h | h
  · exact hs.parents l h
  · exact h

theorem Sound.write {s s' : FileStore} (hs : s.Sound) {p : Path} {bytes : List UInt8}
    (h : s.write p bytes = .ok s') : s'.Sound := by
  obtain ⟨l, hplace, -, hsame, hfiles⟩ := write_ok h
  refine hs.of_entries hsame.workingDirectory (fun m hm => by rwa [hsame.directories])
    fun m hm => ?_
  by_cases hml : m = l
  · subst hml
    cases hfind : s.find? m with
    | some e => exact .inl rfl
    | none => exact .inr (hs.place_new hplace hfind)
  · refine .inl (isSome_find?.mpr ?_)
    rwa [isSome_find?, hfiles, if_neg hml, hsame.directories] at hm

theorem Sound.remove {s s' : FileStore} (hs : s.Sound) {p : Path} (h : s.remove p = .ok s') :
    s'.Sound := by
  obtain ⟨l, -, hsame, hfiles⟩ := remove_ok h
  refine hs.of_entries hsame.workingDirectory (fun m hm => by rwa [hsame.directories])
    fun m hm => .inl (isSome_find?.mpr ?_)
  rw [isSome_find?, hfiles, hsame.directories] at hm
  split at hm
  · exact hm.imp (fun h => absurd h (by simp)) id
  · exact hm

/-! ## Making directories -/

/-- All files are as they were, and the only new directories are in some of the given places. -/
structure Grows (places : List Location) (s s' : FileStore) : Prop where
  files : ∀ l, s'.fileAt? l = s.fileAt? l
  kept : ∀ l, s.isDirectoryAt l → s'.isDirectoryAt l
  made : ∀ l, s'.isDirectoryAt l → s.isDirectoryAt l ∨ l ∈ places
  workingDirectory : s'.workingDirectory = s.workingDirectory
  clock : s'.clock = s.clock

theorem Grows.refl (places : List Location) (s : FileStore) : Grows places s s :=
  ⟨fun _ => rfl, fun _ h => h, fun _ h => .inl h, rfl, rfl⟩

theorem Grows.trans {places : List Location} {s s' s'' : FileStore} (h : Grows places s s')
    (h' : Grows places s' s'') : Grows places s s'' where
  files l := (h'.files l).trans (h.files l)
  kept l hl := h'.kept l (h.kept l hl)
  made l hl := (h'.made l hl).elim (fun hl => h.made l hl) .inr
  workingDirectory := h'.workingDirectory.trans h.workingDirectory
  clock := h'.clock.trans h.clock

theorem Grows.mono {places places' : List Location} {s s' : FileStore} (h : Grows places s s')
    (hsub : places ⊆ places') : Grows places' s s' :=
  { h with made := fun l hl => (h.made l hl).imp_right fun hl => hsub hl }

theorem makeDirectory_ok {s s' : FileStore} {p : Path} (h : s.makeDirectory p = .ok s') :
    Grows [s.locationOf p] s s' ∧ s'.isDirectoryAt (s.locationOf p) ∧ (s.Sound → s'.Sound) := by
  cases hplace : s.place p with
  | error f => simp [makeDirectory, hplace] at h
  | ok l =>
    cases hfind : s.find? l with
    | some e => simp [makeDirectory, hplace, hfind] at h
    | none =>
      obtain rfl := place_eq hplace
      obtain rfl : (s.put (s.locationOf p) (.directory s.clock)).stamp (s.locationOf p).dropLast =
          s' := by
        simpa [makeDirectory, hplace, hfind] using h
      have hdirectories (l : Location) := isDirectoryAt_put_directory s hfind s.clock l
      have hgrows : Grows [s.locationOf p] s
          ((s.put (s.locationOf p) (.directory s.clock)).stamp (s.locationOf p).dropLast) := by
        refine ⟨fun l => ?_, fun l hl => ?_, fun l hl => ?_, rfl, rfl⟩
        · rw [fileAt?_stamp, fileAt?_put_directory s hfind]
        · rw [isDirectoryAt_stamp, hdirectories]
          exact .inr hl
        · rw [isDirectoryAt_stamp, hdirectories] at hl
          exact hl.symm.imp_right List.mem_singleton.mpr
      refine ⟨hgrows, ?_, fun hs => hs.of_entries rfl hgrows.kept fun l hl => ?_⟩
      · rw [isDirectoryAt_stamp, hdirectories]
        exact .inl rfl
      · rcases isSome_find?.mp hl with hl | hl
        · rw [hgrows.files] at hl
          exact .inl (isSome_find?.mpr (.inl hl))
        · rcases hgrows.made l hl with hl | hl
          · exact .inl (isSome_find?.mpr (.inr hl))
          · rw [List.mem_singleton.mp hl]
            exact .inr (hs.place_new hplace hfind)

theorem ensureDirectory_grows (s : FileStore) (p : Path) :
    Grows [s.locationOf p] s (s.ensureDirectory p).store ∧
      (s.Sound → (s.ensureDirectory p).store.Sound) := by
  unfold ensureDirectory
  split
  · next h =>
    obtain ⟨hgrows, -, hsound⟩ := makeDirectory_ok h
    exact ⟨hgrows, hsound⟩
  · split
    · exact ⟨.refl _ s, id⟩
    · exact ⟨.refl _ s, id⟩

/-- Making directories makes some of those on the way. -/
theorem makeDirectories_grows (s : FileStore) (p : Path) :
    Grows (s.trailOf p) s (s.makeDirectories p).store ∧
      (s.Sound → (s.makeDirectories p).store.Sound) := by
  have hself : [s.locationOf p] ⊆ s.trailOf p :=
    List.cons_subset.mpr ⟨s.locationOf_mem_trailOf p, List.nil_subset _⟩
  have hensure := ensureDirectory_grows s p
  induction hlength : p.names.length generalizing p with
  | zero =>
    have hnames : p.names = [] := List.length_eq_zero_iff.mp hlength
    rw [makeDirectories]
    split
    · rw [dif_pos hnames]
      exact ⟨.refl _ s, id⟩
    · exact ⟨hensure.1.mono hself, hensure.2⟩
  | succ k ih =>
    have hnames : p.names ≠ [] := by
      rintro h
      simp [h] at hlength
    rw [makeDirectories]
    split
    · rw [dif_neg hnames]
      have hparent : p.parent.names.length = k := by
        simp [Path.parent, hlength]
      have hsub : s.trailOf p.parent ⊆ s.trailOf p := s.trailOf_parent_subset p
      obtain ⟨hgrows, hsound⟩ := ih p.parent
        (List.cons_subset.mpr ⟨s.locationOf_mem_trailOf _, List.nil_subset _⟩)
        (ensureDirectory_grows s _) hparent
      split
      · next mid hmid =>
        rw [hmid] at hgrows hsound
        obtain ⟨hgrows', hsound'⟩ := ensureDirectory_grows mid p
        rw [locationOf_congr hgrows.workingDirectory] at hgrows'
        exact ⟨(hgrows.mono hsub).trans (hgrows'.mono hself), fun hs => hsound' (hsound hs)⟩
      · exact ⟨hgrows.mono hsub, hsound⟩
    · exact ⟨hensure.1.mono hself, hensure.2⟩

/-- In a store that holds together, a way without files leads to a directory unless something on it
is missing. -/
theorem Sound.follow {s : FileStore} (hs : s.Sound) {l : Location} {names : List FileName}
    (hl : s.isDirectoryAt l) (hfree : ∀ m ∈ l.trail names, s.fileAt? m = none) :
    s.follow l names = .error .missing ∨
      s.follow l names = .ok (l.via names) ∧ s.isDirectoryAt (l.via names) := by
  induction names generalizing l with
  | nil => exact .inr ⟨rfl, hl⟩
  | cons n names ih =>
    have hrest : ∀ m ∈ (l.via [n]).trail names, s.fileAt? m = none := fun m hm =>
      hfree m (Location.trail_cons_subset l n names hm)
    simp only [FileStore.follow, Location.via_cons, hl, Bool.not_true, Bool.false_eq_true, if_false]
    rw [Location.via_cons, Location.via_nil] at hrest
    split
    · next hn =>
      rw [if_pos hn] at hrest
      exact ih (hs.dropLast hl) hrest
    · next hn =>
      rw [if_neg hn] at hrest
      split
      · next hsome =>
        have hnone := hrest _ (Location.mem_trail_self _ _)
        have hdir : s.isDirectoryAt (l ++ [n]) := by
          simpa [hnone] using isSome_find?.mp hsome
        exact ih hdir hrest
      · exact .inl rfl

/-- A directory in a directory is there or is made, unless a file is in its place. -/
theorem ensureDirectory_child {s : FileStore} {p : Path} {n : FileName} {d : Location}
    (h : s.locate p = .ok d) (hd : s.isDirectoryAt d)
    (hfree : s.fileAt? (s.locationOf (p.child n)) = none) :
    s.makeDirectory (p.child n) ≠ .error .missing ∧
      ∃ s', s.ensureDirectory (p.child n) = ⟨s', none⟩ ∧
        s'.locate (p.child n) = .ok (s.locationOf (p.child n)) ∧
        s'.isDirectoryAt (s.locationOf (p.child n)) := by
  obtain rfl := locate_eq h
  have hplace : s.place (p.child n) = .ok (s.locationOf (p.child n)) := by
    rw [locationOf_child]
    unfold FileStore.place
    rw [show (p.child n).names.getLast? = some n by simp [Path.child]]
    simp [h, hd]
  -- Where the name leads once its place is a directory.
  have hlocate {s' : FileStore} (hkept : ∀ l, s.isDirectoryAt l → s'.isDirectoryAt l)
      (hwd : s'.workingDirectory = s.workingDirectory)
      (hdir : s'.isDirectoryAt (s.locationOf (p.child n))) :
      s'.locate (p.child n) = .ok (s.locationOf (p.child n)) := by
    have hp : s'.locate p = .ok (s.locationOf p) :=
      locate_of_directories hwd hkept h (isSome_find?.mpr (.inr (hkept _ hd)))
    rw [locationOf_child] at hdir ⊢
    by_cases hn : n = FileName.parent
    · unfold locate at hp ⊢
      rw [show (p.child n).names = p.names ++ [n] from rfl, follow_append,
        show s'.startOf (p.child n) = s'.startOf p from rfl, hp]
      simp [FileStore.follow, hkept _ hd, hn]
    · rw [if_neg hn] at hdir ⊢
      exact locate_child_of_isSome hp (hkept _ hd) hn (isSome_find?.mpr (.inr hdir))
  cases hfind : s.find? (s.locationOf (p.child n)) with
  | some e =>
    have hdir : s.isDirectoryAt (s.locationOf (p.child n)) := by
      simpa [hfree, hfind] using isSome_find? (s := s) (l := s.locationOf (p.child n))
    have hmake : s.makeDirectory (p.child n) = .error .alreadyThere := by
      simp [makeDirectory, hplace, hfind]
    have hl := hlocate (fun _ h => h) rfl hdir
    have hdirectory : s.isDirectory (p.child n) = true := by
      obtain ⟨t, ht⟩ := isDirectoryAt_iff.mp hdir
      simp [isDirectory, status, hl, ht, Except.toOption, Entry.isDirectory]
    exact ⟨by simp [hmake], s, by simp [ensureDirectory, hmake, hdirectory], hl, hdir⟩
  | none =>
    obtain ⟨s', hs'⟩ : ∃ s', s.makeDirectory (p.child n) = .ok s' := by
      simp [makeDirectory, hplace, hfind]
    obtain ⟨hgrows, hdir, -⟩ := makeDirectory_ok hs'
    exact ⟨by simp [hs'], s', by simp [ensureDirectory, hs'],
      hlocate hgrows.kept hgrows.workingDirectory hdir, hdir⟩

/-- Directories can be made where no file stands on the way. -/
theorem Sound.makeDirectories {s : FileStore} (hs : s.Sound) {p : Path}
    (hfree : ∀ l ∈ s.trailOf p, s.fileAt? l = none) :
    ∃ s', s.makeDirectories p = ⟨s', none⟩ ∧ s'.locate p = .ok (s.locationOf p) ∧
      s'.isDirectoryAt (s.locationOf p) := by
  induction hlength : p.names.length generalizing p with
  | zero =>
    have hnames : p.names = [] := List.length_eq_zero_iff.mp hlength
    have hlocation : s.locationOf p = s.startOf p := by simp [locationOf, hnames]
    have hlocate : s.locate p = .ok (s.startOf p) := by simp [locate, hnames, FileStore.follow]
    rw [hlocation]
    exact ⟨s, makeDirectories_of_isDirectory hlocate (hs.startOf p), hlocate, hs.startOf p⟩
  | succ k ih =>
    have hnames : p.names ≠ [] := by
      rintro h
      simp [h] at hlength
    obtain ⟨n, hn⟩ := eq_child_of_ne_nil hnames
    have hself : s.fileAt? (s.locationOf (p.parent.child n)) = none := by
      rw [← hn]
      exact hfree _ (s.locationOf_mem_trailOf p)
    have hparent : ∀ l ∈ s.trailOf p.parent, s.fileAt? l = none := fun l hl =>
      hfree l (s.trailOf_parent_subset p hl)
    rcases hs.follow (hs.startOf p.parent) hparent with hmissing | ⟨hlocate, hdir⟩
    · -- Something above is missing, and is made first.
      have hmake : s.makeDirectory p = .error .missing := by
        rw [hn]
        unfold makeDirectory FileStore.place
        rw [show (p.parent.child n).names.getLast? = some n by simp [Path.child]]
        simp [locate, hmissing]
      obtain ⟨mid, hmid, hlocate, hdir⟩ := ih hparent (by simp [Path.parent, hlength])
      have hgrows := (makeDirectories_grows s p.parent).1
      rw [hmid] at hgrows
      have hlocation := locationOf_congr hgrows.workingDirectory (p.parent.child n)
      obtain ⟨-, s', hensure, hl, hd⟩ := ensureDirectory_child hlocate hdir
        (by rw [hlocation, hgrows.files]; exact hself)
      rw [hlocation, ← hn] at hl hd
      rw [← hn] at hensure
      refine ⟨s', ?_, hl, hd⟩
      rw [FileStore.makeDirectories, hmake]
      simp [hnames, hmid, hensure]
    · obtain ⟨hmake, s', hensure, hl, hd⟩ := ensureDirectory_child hlocate hdir hself
      rw [← hn] at hmake hensure hl hd
      refine ⟨s', ?_, hl, hd⟩
      rw [FileStore.makeDirectories]
      split
      · next h => exact absurd h hmake
      · exact hensure

/-- No file stands in the place of a directory or on the way to it: the directory is there or can be
made. -/
def HasRoom (s : FileStore) (directory : Path) : Prop :=
  ∀ l ∈ s.trailOf directory, s.fileAt? l = none

/-! ## Writing files with the directories above them -/

/-- Writing a file makes directories on the way to it, and then writes it or fails. -/
theorem writeWithParents_cases (s : FileStore) (p : Path) (bytes : List UInt8) :
    ∃ mid, Grows (s.trailOf p.parent) s mid ∧ (s.Sound → mid.Sound) ∧
      ((s.writeWithParents p bytes).store = mid ∨
        mid.write p bytes = .ok (s.writeWithParents p bytes).store) := by
  obtain ⟨hgrows, hsound⟩ := makeDirectories_grows s p.parent
  refine ⟨_, hgrows, hsound, ?_⟩
  unfold writeWithParents
  split
  · next mid hmid =>
    rw [hmid]
    split
    · next h => exact .inr h
    · exact .inl rfl
  · exact .inl rfl

theorem writeWithParents_workingDirectory (s : FileStore) (p : Path) (bytes : List UInt8) :
    (s.writeWithParents p bytes).store.workingDirectory = s.workingDirectory := by
  obtain ⟨mid, hgrows, -, h | h⟩ := writeWithParents_cases s p bytes
  · rw [h, hgrows.workingDirectory]
  · obtain ⟨l, -, -, hsame, -⟩ := write_ok h
    rw [hsame.workingDirectory, hgrows.workingDirectory]

/-- A file can be written where no directory is and no file stands on the way. -/
theorem Sound.writeWithParents {s : FileStore} (hs : s.Sound) {p : Path} {n : FileName}
    (bytes : List UInt8) (hn : n ≠ FileName.parent)
    (hfree : ∀ l ∈ s.trailOf p, s.fileAt? l = none)
    (hl : ¬ s.isDirectoryAt (s.locationOf (p.child n)))
    (happart : s.locationOf (p.child n) ∉ s.trailOf p) :
    ∃ s', s.writeWithParents (p.child n) bytes = ⟨s', none⟩ := by
  obtain ⟨mid, hmid, hlocate, hdir⟩ := hs.makeDirectories hfree
  have hgrows := (makeDirectories_grows s p).1
  rw [hmid] at hgrows
  have hchild : s.locationOf (p.child n) = s.locationOf p ++ [n] := by
    rw [locationOf_child, if_neg hn]
  have hnone : ¬ mid.isDirectoryAt (s.locationOf p ++ [n]) := by
    rw [← hchild]
    exact fun h => (hgrows.made _ h).elim hl happart
  obtain ⟨s', hwrite, -, -⟩ := write_of_place bytes (place_child hlocate hdir hn) hnone
  exact ⟨s', by simp [FileStore.writeWithParents, hmid, hwrite]⟩

end FileStore

end ManifestTree
