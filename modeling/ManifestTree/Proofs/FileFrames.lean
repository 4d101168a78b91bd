import ManifestTree.FileStore

/-!
# What file operations leave alone

A store is looked at in two ways: which file a location holds, and whether a directory is there.
The times of directories do not show.  Setting, removing and stamping entries is described by these
two alone, and so is what it takes for a path to lead where it led before.
-/

namespace ManifestTree.FileStore

/-! ## Files and directories -/

/-- The contents of the file at a location, and when it was last changed. -/
def fileAt? (s : FileStore) (l : Location) : Option (List UInt8 × Int) :=
  match s.find? l with
  | some (.file bytes t) => some (bytes, t)
  | _ => none

theorem fileAt?_eq_some {s : FileStore} {l : Location} {bytes : List UInt8} {t : Int} :
    s.fileAt? l = some (bytes, t) ↔ s.find? l = some (.file bytes t) := by
  unfold fileAt?
  constructor
  · intro h
    split at h
    · next hl => rw [hl]; cases h; rfl
    · cases h
  · intro h
    rw [h]

theorem isDirectoryAt_iff {s : FileStore} {l : Location} :
    s.isDirectoryAt l ↔ ∃ t, s.find? l = some (.directory t) := by
  unfold isDirectoryAt
  cases s.find? l with
  | none => simp
  | some e => cases e <;> simp [Entry.isDirectory]

@[simp] theorem isDirectoryAt_root (s : FileStore) : s.isDirectoryAt [] := rfl

@[simp] theorem fileAt?_root (s : FileStore) : s.fileAt? [] = none := rfl

theorem fileAt?_eq_none {s : FileStore} {l : Location} (h : s.isDirectoryAt l) :
    s.fileAt? l = none := by
  obtain ⟨t, ht⟩ := isDirectoryAt_iff.mp h
  simp [fileAt?, ht]

theorem not_isDirectoryAt {s : FileStore} {l : Location} {f : List UInt8 × Int}
    (h : s.fileAt? l = some f) : ¬ s.isDirectoryAt l := by
  intro hd
  rw [fileAt?_eq_none hd] at h
  cases h

/-- Something is at a location just if it is a file or a directory. -/
theorem isSome_find? {s : FileStore} {l : Location} :
    (s.find? l).isSome ↔ (s.fileAt? l).isSome ∨ s.isDirectoryAt l := by
  unfold fileAt? isDirectoryAt
  cases s.find? l with
  | none => simp
  | some e => cases e <;> simp [Entry.isDirectory]

theorem find?_eq_none {s : FileStore} {l : Location} :
    s.find? l = none ↔ s.fileAt? l = none ∧ ¬ s.isDirectoryAt l := by
  have h := isSome_find? (s := s) (l := l)
  rw [← Option.not_isSome_iff_eq_none, h, not_or, Option.not_isSome_iff_eq_none]

theorem ne_nil_of_not_isDirectoryAt {s : FileStore} {l : Location} (h : ¬ s.isDirectoryAt l) :
    l ≠ [] := by
  rintro rfl
  exact h rfl

/-! ## Changes of one entry -/

theorem find?_erase (s : FileStore) (l m : Location) (hl : l ≠ []) :
    (s.erase l).find? m = if m = l then none else s.find? m := by
  cases m with
  | nil => simp [find?, Ne.symm hl]
  | cons n m =>
    by_cases h : n :: m = l
    · subst h
      have hmem : ∀ x ∈ s.entries.filter (fun x => x.1 ≠ n :: m), (n :: m != x.1) = true := by
        intro x hx
        have hx : x.1 ≠ n :: m := by simpa only [decide_eq_true_eq] using (List.mem_filter.mp hx).2
        exact bne_iff_ne.mpr hx.symm
      rw [if_pos rfl]
      exact List.lookup_eq_none_iff.mpr hmem
    · simpa [find?, erase, if_neg h] using lookup_filter_ne l (n :: m) h s.entries

/-- Looking up after a change of the entries that keeps their locations. -/
theorem lookup_map_entries (f : Location × Entry → Location × Entry)
    (hf : ∀ x, (f x).1 = x.1) (m : Location) (es : List (Location × Entry)) :
    (es.map f).lookup m = (es.lookup m).map fun e => (f (m, e)).2 := by
  induction es with
  | nil => rfl
  | cons x es ih =>
    obtain ⟨k, e⟩ := x
    have hfx : f (k, e) = (k, (f (k, e)).2) := Prod.ext (hf (k, e)) rfl
    rw [List.map_cons, hfx, List.lookup_cons, List.lookup_cons]
    by_cases hk : m = k
    · subst hk
      simp
    · have hb : (m == k) = false := by simpa using hk
      rw [hb]
      exact ih

theorem find?_stamp (s : FileStore) (l m : Location) (hm : m ≠ []) :
    (s.stamp l).find? m =
      (s.find? m).map fun e => if m = l ∧ e.isDirectory then e.changedAt s.clock else e := by
  obtain ⟨n, m, rfl⟩ := List.exists_cons_of_ne_nil hm
  simp only [find?, stamp]
  rw [lookup_map_entries]
  · congr 1
    funext e
    by_cases h : n :: m = l ∧ e.isDirectory
    · simp [h]
    · simp [h]
  · intro x
    split <;> rfl

@[simp] theorem fileAt?_stamp (s : FileStore) (l m : Location) :
    (s.stamp l).fileAt? m = s.fileAt? m := by
  by_cases hm : m = []
  · subst hm; rfl
  unfold fileAt?
  rw [find?_stamp s l m hm]
  cases s.find? m with
  | none => rfl
  | some e =>
    cases e with
    | file bytes t => simp [Entry.isDirectory]
    | directory t =>
      by_cases h : m = l
      · simp [h, Entry.isDirectory, Entry.changedAt]
      · simp [h]

/-- Stamping a directory makes and removes none. -/
@[simp] theorem isDirectoryAt_stamp (s : FileStore) (l m : Location) :
    (s.stamp l).isDirectoryAt m = s.isDirectoryAt m := by
  by_cases hm : m = []
  · subst hm; rfl
  unfold isDirectoryAt
  rw [find?_stamp s l m hm]
  cases s.find? m with
  | none => rfl
  | some e =>
    cases e with
    | file bytes t => simp [Entry.isDirectory]
    | directory t =>
      by_cases h : m = l
      · simp [h, Entry.isDirectory, Entry.changedAt]
      · simp [h]

theorem fileAt?_put_file (s : FileStore) {l : Location} (hl : l ≠ []) (bytes : List UInt8)
    (t : Int) (m : Location) :
    (s.put l (.file bytes t)).fileAt? m = if m = l then some (bytes, t) else s.fileAt? m := by
  unfold fileAt?
  rw [find?_put s l m _ hl]
  by_cases h : m = l <;> simp [h]

/-- A file that replaces no directory leaves all directories. -/
theorem isDirectoryAt_put_file (s : FileStore) {l : Location} (hl : ¬ s.isDirectoryAt l)
    (bytes : List UInt8) (t : Int) (m : Location) :
    (s.put l (.file bytes t)).isDirectoryAt m = s.isDirectoryAt m := by
  unfold isDirectoryAt at hl ⊢
  rw [find?_put s l m _ (ne_nil_of_not_isDirectoryAt hl)]
  by_cases h : m = l
  · subst h
    simpa [Entry.isDirectory] using hl
  · simp [h]

/-- A directory where nothing was leaves all files. -/
theorem fileAt?_put_directory (s : FileStore) {l : Location} (hl : s.find? l = none) (t : Int)
    (m : Location) : (s.put l (.directory t)).fileAt? m = s.fileAt? m := by
  have hne : l ≠ [] := ne_nil_of_not_isDirectoryAt (find?_eq_none.mp hl).2
  unfold fileAt?
  rw [find?_put s l m _ hne]
  by_cases h : m = l
  · subst h
    simp [hl]
  · simp [h]

theorem isDirectoryAt_put_directory (s : FileStore) {l : Location} (hl : s.find? l = none)
    (t : Int) (m : Location) :
    (s.put l (.directory t)).isDirectoryAt m ↔ m = l ∨ s.isDirectoryAt m := by
  have hne : l ≠ [] := ne_nil_of_not_isDirectoryAt (find?_eq_none.mp hl).2
  unfold isDirectoryAt
  rw [find?_put s l m _ hne]
  by_cases h : m = l <;> simp [h, Entry.isDirectory]

theorem fileAt?_erase (s : FileStore) {l : Location} (hl : l ≠ []) (m : Location) :
    (s.erase l).fileAt? m = if m = l then none else s.fileAt? m := by
  unfold fileAt?
  rw [find?_erase s l m hl]
  by_cases h : m = l <;> simp [h]

/-- Removing what is no directory leaves all directories. -/
theorem isDirectoryAt_erase (s : FileStore) {l : Location} (hl : ¬ s.isDirectoryAt l)
    (m : Location) : (s.erase l).isDirectoryAt m = s.isDirectoryAt m := by
  unfold isDirectoryAt at hl ⊢
  rw [find?_erase s l m (ne_nil_of_not_isDirectoryAt hl)]
  by_cases h : m = l
  · subst h
    simpa using hl
  · simp [h]

/-! ## Stores with the same directories -/

/-- Two stores have the same directories, working directory and clock. -/
structure SameDirectories (s s' : FileStore) : Prop where
  /-- A location holds a directory in both or in neither. -/
  directories : ∀ l, s'.isDirectoryAt l = s.isDirectoryAt l
  /-- Paths start in the same place. -/
  workingDirectory : s'.workingDirectory = s.workingDirectory
  /-- It is the same time. -/
  clock : s'.clock = s.clock

theorem SameDirectories.symm {s s' : FileStore} (h : SameDirectories s s') :
    SameDirectories s' s :=
  ⟨fun l => (h.directories l).symm, h.workingDirectory.symm, h.clock.symm⟩

theorem SameDirectories.trans {s s' s'' : FileStore} (h : SameDirectories s s')
    (h' : SameDirectories s' s'') : SameDirectories s s'' :=
  ⟨fun l => (h'.directories l).trans (h.directories l),
    h'.workingDirectory.trans h.workingDirectory, h'.clock.trans h.clock⟩

/-! ## Following paths -/

theorem follow_append (s : FileStore) (l : Location) (ns ms : List FileName) :
    s.follow l (ns ++ ms) =
      match s.follow l ns with
      | .error f => .error f
      | .ok m => s.follow m ms := by
  induction ns generalizing l with
  | nil => rfl
  | cons n ns ih =>
    simp only [List.cons_append, follow]
    split
    · rfl
    split
    · exact ih _
    split
    · exact ih _
    · rfl

/-- A path of one name leads to the parent, or to an entry of the directory. -/
theorem follow_single {s : FileStore} {l m : Location} {n : FileName}
    (h : s.follow l [n] = .ok m) :
    s.isDirectoryAt l ∧ m = (if n = FileName.parent then l.dropLast else l ++ [n]) ∧
      (n ≠ FileName.parent → (s.find? m).isSome) := by
  simp only [follow] at h
  split at h
  · cases h
  next hl =>
  replace hl : s.isDirectoryAt l := by simpa using hl
  split at h
  · next hn => cases h; exact ⟨hl, (if_pos hn).symm, fun h => absurd hn h⟩
  next hn =>
  split at h
  · next hfind => cases h; exact ⟨hl, (if_neg hn).symm, fun _ => hfind⟩
  · cases h

/-- Where a path leads, it still leads when no directory on its way is gone and something is at
its end. -/
theorem follow_of_directories {s s' : FileStore}
    (hdir : ∀ l, s.isDirectoryAt l → s'.isDirectoryAt l)
    {names : List FileName} {l m : Location} (h : s.follow l names = .ok m)
    (hm : (s'.find? m).isSome) : s'.follow l names = .ok m := by
  induction names generalizing l with
  | nil => exact h
  | cons n names ih =>
    simp only [follow] at h ⊢
    split at h
    · cases h
    next hl =>
    have hl' : s'.isDirectoryAt l := hdir l (by simpa using hl)
    rw [if_neg (by simp [hl'])]
    split at h
    · next hn => rw [if_pos hn]; exact ih h
    next hn =>
    rw [if_neg hn]
    split at h
    · -- The entry is the end of the path, or a directory that the path goes on from.
      have hentry : (s'.find? (l ++ [n])).isSome := by
        cases names with
        | nil => cases h; exact hm
        | cons k names =>
          refine isSome_find?.mpr (.inr (hdir _ ?_))
          simp only [follow] at h
          split at h
          · cases h
          · next hd => simpa using hd
      rw [if_pos hentry]
      exact ih h
    · cases h

theorem startOf_congr {s s' : FileStore} (h : s'.workingDirectory = s.workingDirectory)
    (p : Path) : s'.startOf p = s.startOf p := by
  simp [startOf, h]

theorem resolve_congr {s s' : FileStore} (h : s'.workingDirectory = s.workingDirectory)
    (p : Path) : s'.resolve p = s.resolve p := by
  simp [resolve, h]

theorem locate_of_directories {s s' : FileStore} (hwd : s'.workingDirectory = s.workingDirectory)
    (hdir : ∀ l, s.isDirectoryAt l → s'.isDirectoryAt l) {p : Path} {l : Location}
    (h : s.locate p = .ok l) (hl : (s'.find? l).isSome) : s'.locate p = .ok l := by
  unfold locate at h ⊢
  rw [startOf_congr hwd]
  exact follow_of_directories hdir h hl

theorem status_eq_file {s : FileStore} {p : Path} {bytes : List UInt8} {t : Int} :
    s.status p = .ok (.file bytes t) ↔
      ∃ l, s.locate p = .ok l ∧ s.fileAt? l = some (bytes, t) := by
  simp only [status, fileAt?_eq_some]
  cases s.locate p with
  | error f => simp
  | ok l =>
    simp only [Except.ok.injEq, exists_eq_left']
    cases s.find? l with
    | none => simp
    | some e => simp

theorem isFile_iff {s : FileStore} {p : Path} :
    s.isFile p ↔ ∃ bytes t, s.status p = .ok (.file bytes t) := by
  unfold isFile
  cases s.status p with
  | error f => simp [Except.toOption]
  | ok e => cases e <;> simp [Except.toOption, Entry.isDirectory]

theorem read_of_status {s : FileStore} {p : Path} {bytes : List UInt8} {t : Int}
    (h : s.status p = .ok (.file bytes t)) : s.read p = .ok bytes := by
  simp [read, h]

/-- A path that leads somewhere names that place. -/
theorem place_of_locate {s : FileStore} {p : Path} {l : Location} (h : s.locate p = .ok l) :
    s.place p = .ok l := by
  unfold place
  split
  · exact h
  next n hn =>
  obtain ⟨ns, hns⟩ := List.getLast?_eq_some_iff.mp hn
  have hparent : s.locate p.parent = s.follow (s.startOf p) ns := by
    simp [locate, Path.parent, startOf, hns]
  unfold locate at h
  rw [hns, follow_append] at h
  rw [hparent]
  cases hm : s.follow (s.startOf p) ns with
  | error f =>
    rw [hm] at h
    cases h
  | ok m =>
    rw [hm] at h
    obtain ⟨hd, rfl, -⟩ := follow_single h
    simp [hd]

/-- The directory of an entry that a path leads to by its name. -/
theorem locate_child {s : FileStore} {p : Path} {n : FileName} {l : Location}
    (h : s.locate (p.child n) = .ok l) (hn : n ≠ FileName.parent) :
    ∃ d, s.locate p = .ok d ∧ s.isDirectoryAt d ∧ l = d ++ [n] := by
  unfold locate at h
  rw [show (p.child n).names = p.names ++ [n] from rfl, follow_append] at h
  split at h
  · cases h
  next d hd =>
  obtain ⟨hdir, hl, -⟩ := follow_single h
  exact ⟨d, hd, hdir, by rw [hl, if_neg hn]⟩

/-- A name in a directory leads to the entry of that name. -/
theorem locate_child_of_isSome {s : FileStore} {p : Path} {n : FileName} {d : Location}
    (h : s.locate p = .ok d) (hd : s.isDirectoryAt d) (hn : n ≠ FileName.parent)
    (hsome : (s.find? (d ++ [n])).isSome) : s.locate (p.child n) = .ok (d ++ [n]) := by
  unfold locate at h ⊢
  rw [show (p.child n).names = p.names ++ [n] from rfl, follow_append,
    show s.startOf (p.child n) = s.startOf p from rfl, h]
  simp [follow, hd, hn, hsome]

/-- What a name in a directory names. -/
theorem place_child {s : FileStore} {p : Path} {n : FileName} {d : Location}
    (h : s.locate p = .ok d) (hd : s.isDirectoryAt d) (hn : n ≠ FileName.parent) :
    s.place (p.child n) = .ok (d ++ [n]) := by
  unfold place
  rw [show (p.child n).names.getLast? = some n by simp [Path.child]]
  simp [h, hd, hn]

/-! ## Writing and removing files -/

/-- Writing a file where no directory is. -/
theorem write_of_place {s : FileStore} {p : Path} {l : Location} (bytes : List UInt8)
    (h : s.place p = .ok l) (hl : ¬ s.isDirectoryAt l) :
    ∃ s', s.write p bytes = .ok s' ∧ SameDirectories s s' ∧
      ∀ m, s'.fileAt? m = if m = l then some (bytes, s.clock) else s.fileAt? m := by
  have hne := ne_nil_of_not_isDirectoryAt hl
  cases hfind : s.find? l with
  | none =>
    refine ⟨(s.put l (.file bytes s.clock)).stamp l.dropLast, by simp [write, h, hfind],
      ⟨fun m => ?_, rfl, rfl⟩, fun m => ?_⟩
    · rw [isDirectoryAt_stamp, isDirectoryAt_put_file s hl]
    · rw [fileAt?_stamp, fileAt?_put_file s hne]
  | some e =>
    cases e with
    | directory t => exact absurd (isDirectoryAt_iff.mpr ⟨t, hfind⟩) hl
    | file old t =>
      exact ⟨s.put l (.file bytes s.clock), by simp [write, h, hfind],
        ⟨fun m => isDirectoryAt_put_file s hl bytes _ m, rfl, rfl⟩,
        fun m => fileAt?_put_file s hne bytes _ m⟩

/-- Writing changes one file, at the place that the path names. -/
theorem write_ok {s s' : FileStore} {p : Path} {bytes : List UInt8}
    (h : s.write p bytes = .ok s') :
    ∃ l, s.place p = .ok l ∧ ¬ s.isDirectoryAt l ∧ SameDirectories s s' ∧
      ∀ m, s'.fileAt? m = if m = l then some (bytes, s.clock) else s.fileAt? m := by
  cases hplace : s.place p with
  | error f => simp [write, hplace] at h
  | ok l =>
    have hl : ¬ s.isDirectoryAt l := by
      intro hd
      obtain ⟨t, ht⟩ := isDirectoryAt_iff.mp hd
      simp [write, hplace, ht] at h
    obtain ⟨s₂, hwrite, hsame, hfiles⟩ := write_of_place bytes hplace hl
    obtain rfl : s' = s₂ := by simpa [h] using hwrite
    exact ⟨l, rfl, hl, hsame, hfiles⟩

/-- A file to which a path leads can be removed. -/
theorem remove_of_locate {s : FileStore} {p : Path} {l : Location} {f : List UInt8 × Int}
    (h : s.locate p = .ok l) (hl : s.fileAt? l = some f) :
    ∃ s', s.remove p = .ok s' ∧ SameDirectories s s' ∧
      ∀ m, s'.fileAt? m = if m = l then none else s.fileAt? m := by
  have hdir := not_isDirectoryAt hl
  refine ⟨(s.erase l).stamp l.dropLast, ?_, ⟨fun m => ?_, rfl, rfl⟩, fun m => ?_⟩
  · simp [remove, h, fileAt?_eq_some.mp hl]
  · rw [isDirectoryAt_stamp, isDirectoryAt_erase s hdir]
  · rw [fileAt?_stamp, fileAt?_erase s (ne_nil_of_not_isDirectoryAt hdir)]

/-- Removing takes away one file, the one to which the path leads. -/
theorem remove_ok {s s' : FileStore} {p : Path} (h : s.remove p = .ok s') :
    ∃ l, s.locate p = .ok l ∧ SameDirectories s s' ∧
      ∀ m, s'.fileAt? m = if m = l then none else s.fileAt? m := by
  cases hlocate : s.locate p with
  | error f => simp [remove, hlocate] at h
  | ok l =>
    cases hfind : s.find? l with
    | none => simp [remove, hlocate, hfind] at h
    | some e =>
      cases e with
      | directory t => simp [remove, hlocate, hfind] at h
      | file bytes t =>
        obtain ⟨s₂, hremove, hsame, hfiles⟩ :=
          remove_of_locate hlocate (fileAt?_eq_some.mpr hfind)
        obtain rfl : s' = s₂ := by simpa [h] using hremove
        exact ⟨l, rfl, hsame, hfiles⟩

/-! ## Directories that are there -/

/-- Making a directory that is there with all above it changes nothing. -/
theorem makeDirectories_of_isDirectory {s : FileStore} {p : Path} {d : Location}
    (h : s.locate p = .ok d) (hd : s.isDirectoryAt d) : s.makeDirectories p = ⟨s, none⟩ := by
  obtain ⟨t, ht⟩ := isDirectoryAt_iff.mp hd
  have hmake : s.makeDirectory p = .error .alreadyThere := by
    simp [makeDirectory, place_of_locate h, ht]
  have hdirectory : s.isDirectory p = true := by
    simp [isDirectory, status, h, ht, Except.toOption, Entry.isDirectory]
  rw [makeDirectories, hmake]
  simp [ensureDirectory, hmake, hdirectory]

/-- A file that was written in a directory is found by its path. -/
theorem status_of_written {s s' : FileStore} {p : Path} {n : FileName} {d : Location}
    {bytes : List UInt8} {t : Int} (h : s.locate p = .ok d) (hd : s.isDirectoryAt d)
    (hn : n ≠ FileName.parent) (hsame : SameDirectories s s')
    (hfile : s'.fileAt? (d ++ [n]) = some (bytes, t)) :
    s'.status (p.child n) = .ok (.file bytes t) := by
  have hd' : s'.isDirectoryAt d := by rwa [hsame.directories]
  have hp : s'.locate p = .ok d :=
    locate_of_directories hsame.workingDirectory (fun l hl => by rwa [hsame.directories]) h
      (isSome_find?.mpr (.inr hd'))
  have hlocate : s'.locate (p.child n) = .ok (d ++ [n]) :=
    locate_child_of_isSome hp hd' hn (isSome_find?.mpr (.inl (by simp [hfile])))
  exact status_eq_file.mpr ⟨_, hlocate, hfile⟩

theorem writeWithParents_of_isDirectory {s : FileStore} {p : Path} {n : FileName} {d : Location}
    (bytes : List UInt8) (h : s.locate p = .ok d) (hd : s.isDirectoryAt d)
    (hn : n ≠ FileName.parent) (hl : ¬ s.isDirectoryAt (d ++ [n])) :
    ∃ s', s.writeWithParents (p.child n) bytes = ⟨s', none⟩ ∧ SameDirectories s s' ∧
      (∀ m, s'.fileAt? m = if m = d ++ [n] then some (bytes, s.clock) else s.fileAt? m) ∧
      s'.status (p.child n) = .ok (.file bytes s.clock) := by
  obtain ⟨s', hwrite, hsame, hfiles⟩ := write_of_place bytes (place_child h hd hn) hl
  have hfile : s'.fileAt? (d ++ [n]) = some (bytes, s.clock) := by rw [hfiles, if_pos rfl]
  refine ⟨s', ?_, hsame, hfiles, status_of_written h hd hn hsame hfile⟩
  simp [writeWithParents, makeDirectories_of_isDirectory h hd, hwrite]

end ManifestTree.FileStore
