import ManifestTree.Build
import ManifestTree.Proofs.Directories

/-!
# Where artifacts are

The key of a source is spelled with slashes between its names, and the place of its artifact is
spelled by the same names below the build directory, with a suffix on the last one.  So an artifact
lies strictly below the build directory, and sources in different places have artifacts in different
places.
-/

namespace ManifestTree

/-! ## Names between slashes -/

/-- A name that a path may have: it is no empty name and no single dot, and it has no slash. -/
def FileName.Clean (n : FileName) : Prop := n.isProper ∧ CodePoint.char '/' ∉ n

instance : DecidablePred FileName.Clean := fun n =>
  inferInstanceAs (Decidable (n.isProper = true ∧ CodePoint.char '/' ∉ n))

/-- A path whose names are names that a path may have. -/
def Path.Clean (p : Path) : Prop := ∀ n ∈ p.names, n.Clean

instance : DecidablePred Path.Clean := fun p =>
  inferInstanceAs (Decidable (∀ n ∈ p.names, n.Clean))

namespace Text

theorem slash_notMem_betweenSlashes (t : Text) :
    ∀ piece ∈ t.betweenSlashes, CodePoint.char '/' ∉ piece := by
  induction t with
  | nil => simp [betweenSlashes]
  | cons c cs ih =>
    unfold betweenSlashes
    split
    · exact List.forall_mem_cons.mpr ⟨List.not_mem_nil, ih⟩
    · next hc =>
      split
      · simpa [eq_comm] using hc
      · next piece pieces hpieces =>
        rw [hpieces] at ih
        obtain ⟨hpiece, hrest⟩ := List.forall_mem_cons.mp ih
        refine List.forall_mem_cons.mpr ⟨?_, hrest⟩
        simpa [hpiece, eq_comm] using hc

theorem betweenSlashes_of_notMem {n : Text} (h : CodePoint.char '/' ∉ n) :
    n.betweenSlashes = [n] := by
  induction n with
  | nil => rfl
  | cons c cs ih =>
    simp only [List.mem_cons, not_or] at h
    rw [betweenSlashes, if_neg (Ne.symm h.1), ih h.2]

theorem betweenSlashes_append {n : Text} (h : CodePoint.char '/' ∉ n) (t : Text) :
    (n ++ CodePoint.char '/' :: t).betweenSlashes = n :: t.betweenSlashes := by
  induction n with
  | nil => rw [List.nil_append, betweenSlashes, if_pos rfl]
  | cons c cs ih =>
    simp only [List.mem_cons, not_or] at h
    rw [List.cons_append, betweenSlashes, if_neg (Ne.symm h.1), ih h.2]

/-- Names that are joined by slashes are the pieces between them. -/
theorem betweenSlashes_intercalate {names : List FileName} (hne : names ≠ [])
    (h : ∀ n ∈ names, CodePoint.char '/' ∉ n) :
    Text.betweenSlashes ((Text.ofChars ['/']).intercalate names) = names := by
  induction names with
  | nil => exact absurd rfl hne
  | cons n names ih =>
    obtain ⟨hn, hnames⟩ := List.forall_mem_cons.mp h
    cases names with
    | nil => simpa using betweenSlashes_of_notMem hn
    | cons m names =>
      rw [List.intercalate_cons_cons, List.append_assoc]
      have hrest := ih (List.cons_ne_nil m names) hnames
      exact (betweenSlashes_append hn _).trans (congrArg (n :: ·) hrest)

end Text

/-- A path that is read from a text has such names. -/
theorem Path.ofText_clean (t : Text) : (ofText t).Clean := by
  intro n hn
  obtain ⟨hmem, hproper⟩ := List.mem_filter.mp hn
  exact ⟨hproper, t.slash_notMem_betweenSlashes n hmem⟩

/-! ## Keys -/

/-- The names that the artifact of the source with a relative path is named by. -/
def Artifact.pieces (names : List FileName) : List FileName :=
  if names = [] then [FileName.self] else names

/-- The pieces of the text of a relative path are its names. -/
theorem Artifact.betweenSlashes_text {names : List FileName} (h : ∀ n ∈ names, n.Clean) :
    (Path.text ⟨.here, names⟩).betweenSlashes = pieces names := by
  unfold Path.text pieces
  by_cases hnames : names = []
  · rw [if_pos ⟨rfl, hnames⟩, if_pos hnames]
    rfl
  · rw [if_neg (by simp [hnames]), if_neg hnames]
    exact Text.betweenSlashes_intercalate hnames fun n hn => (h n hn).2

theorem Artifact.pieces_injective {names names' : List FileName} (h : ∀ n ∈ names, n.Clean)
    (h' : ∀ n ∈ names', n.Clean) (heq : pieces names = pieces names') : names = names' := by
  have hself : ¬ FileName.self.Clean := by decide
  unfold pieces at heq
  split at heq <;> split at heq
  · next hn hn' => rw [hn, hn']
  · next hn' => exact absurd (h' _ (heq ▸ List.mem_singleton_self _)) hself
  · next hn _ => exact absurd (h _ (heq ▸ List.mem_singleton_self _)) hself
  · exact heq

/-- There is at least one piece. -/
theorem Artifact.pieces_eq_concat (names : List FileName) :
    (pieces names).dropLast ++ [(pieces names).getLastD []] = pieces names := by
  have hne : pieces names ≠ [] := by
    unfold pieces
    split
    · exact List.cons_ne_nil _ _
    · next h => exact h
  rw [List.getLastD_eq_getLast?, List.getLast?_eq_some_getLast hne, Option.getD_some]
  exact List.dropLast_concat_getLast hne

theorem Location.mem_via {l : Location} {names : List FileName} {n : FileName}
    (h : n ∈ l.via names) : n ∈ l ∨ n ∈ names ∧ n ≠ FileName.parent := by
  induction names generalizing l with
  | nil => exact .inl h
  | cons m names ih =>
    rw [via_cons] at h
    rcases ih h with hl | ⟨hn, hne⟩
    · split at hl
      · exact .inl (List.dropLast_subset _ hl)
      · next hm =>
        rcases List.mem_append.mp hl with hl | hl
        · exact .inl hl
        · obtain rfl := List.mem_singleton.mp hl
          exact .inr ⟨List.mem_cons_self, hm⟩
    · exact .inr ⟨List.mem_cons_of_mem _ hn, hne⟩

namespace FileStore

/-- The working directory is spelled by names that lead down from the root. -/
def CleanStart (s : FileStore) : Prop :=
  (∀ n ∈ s.workingDirectory, n.Clean) ∧ FileName.parent ∉ s.workingDirectory

/-- A path that is resolved is spelled by the names of its location. -/
theorem resolve_names {s : FileStore} (hs : s.CleanStart) (p : Path) :
    (s.resolve p).names = s.locationOf p := by
  have hsettle (names : List FileName) : Path.settle names = Location.via [] names := rfl
  unfold resolve Path.resolve locationOf startOf Path.join
  rw [hsettle]
  split
  · rw [Location.via_append, Location.via_of_proper [] hs.2, List.nil_append]
  · rfl

theorem locationOf_clean {s : FileStore} (hs : s.CleanStart) {p : Path} (hp : p.Clean) :
    ∀ n ∈ s.locationOf p, n.Clean ∧ n ≠ FileName.parent := by
  intro n hn
  rcases Location.mem_via hn with hstart | ⟨hname, hne⟩
  · unfold startOf at hstart
    split at hstart
    · exact ⟨hs.1 n hstart, fun h => hs.2 (h ▸ hstart)⟩
    · cases hstart
  · exact ⟨hp n hname, hne⟩

end FileStore

/-! ## The places of artifacts -/

/-- A location lies strictly below another. -/
def Location.Below (l d : Location) : Prop := d <+: l ∧ l ≠ d

instance (l d : Location) : Decidable (l.Below d) :=
  inferInstanceAs (Decidable (d <+: l ∧ l ≠ d))

theorem Location.below_append {d names : List FileName} (h : names ≠ []) :
    Location.Below (d ++ names) d :=
  ⟨List.prefix_append d names, by simpa using h⟩

namespace Artifact

/-- The directory of the artifact of the source with a key. -/
def folder (key : Text) (directory : Path) : Path :=
  ⟨directory.anchor, directory.names ++ key.betweenSlashes.dropLast.filter FileName.isProper⟩

/-- The name of the artifact of the source with a key. -/
def fileName (key : Text) : FileName := key.betweenSlashes.getLastD [] ++ Text.ofString suffix

theorem location_eq_child (key : Text) (directory : Path) :
    location key directory = (folder key directory).child (fileName key) := rfl

theorem fileName_ne_parent (key : Text) : fileName key ≠ FileName.parent := by
  intro h
  have hlength := congrArg List.length h
  have hsuffix : (Text.ofString suffix).length = 9 := rfl
  have hparent : FileName.parent.length = 2 := rfl
  rw [fileName, List.length_append, hsuffix, hparent] at hlength
  omega

end Artifact

namespace Build

/-- The key of a source spells the names from the project on. -/
theorem key?_eq_some {s : FileStore} (hs : s.CleanStart) {root p : Path} {key : Text}
    (h : key? s root p = some key) :
    ∃ names, s.locationOf p = s.locationOf root ++ names ∧ key = Path.text ⟨.here, names⟩ := by
  unfold key? Path.relativeTo? Path.startsWith at h
  rw [FileStore.resolve_names hs, FileStore.resolve_names hs] at h
  split at h
  · next hstarts =>
    obtain ⟨names, hnames⟩ := List.isPrefixOf_iff_prefix.mp (Bool.and_eq_true_iff.mp hstarts).2
    refine ⟨names, hnames.symm, ?_⟩
    rw [← hnames, List.drop_left] at h
    exact (Option.some.inj h).symm
  · cases h

variable {s : FileStore} {root directory p : Path} {key : Text}

/-- The directory of an artifact lies below the build directory, at the names of its source. -/
theorem folder_names (directory : Path) (hs : s.CleanStart) (hp : p.Clean)
    (h : key? s root p = some key) :
    ∃ names, s.locationOf p = s.locationOf root ++ names ∧ (∀ n ∈ names, n.Clean) ∧
      key.betweenSlashes = Artifact.pieces names ∧
      (Artifact.folder key directory).names = directory.names ++ (Artifact.pieces names).dropLast ∧
      FileName.parent ∉ (Artifact.pieces names).dropLast := by
  obtain ⟨names, hloc, rfl⟩ := key?_eq_some hs h
  have hclean : ∀ n ∈ names, n.Clean ∧ n ≠ FileName.parent := fun n hn =>
    FileStore.locationOf_clean hs hp n (hloc ▸ List.mem_append_right _ hn)
  have hpieces := Artifact.betweenSlashes_text fun n hn => (hclean n hn).1
  -- The directories of an artifact are the names of its source but the last.
  have hdropLast : ∀ n ∈ (Artifact.pieces names).dropLast, n ∈ names := by
    unfold Artifact.pieces
    split
    · simp
    · exact fun n hn => List.dropLast_subset _ hn
  refine ⟨names, hloc, fun n hn => (hclean n hn).1, hpieces, ?_,
    fun h => (hclean _ (hdropLast _ h)).2 rfl⟩
  unfold Artifact.folder
  rw [hpieces, List.filter_eq_self.mpr fun n hn => (hclean n (hdropLast n hn)).1.1]

theorem artifact_location (directory : Path) (hs : s.CleanStart) (hp : p.Clean)
    (h : key? s root p = some key) :
    ∃ names, s.locationOf p = s.locationOf root ++ names ∧ (∀ n ∈ names, n.Clean) ∧
      s.locationOf (Artifact.location key directory) =
        s.locationOf directory ++ (Artifact.pieces names).dropLast ++
          [(Artifact.pieces names).getLastD [] ++ Text.ofString Artifact.suffix] := by
  obtain ⟨names, hloc, hclean, hpieces, hfolder, hparent⟩ :=
    folder_names directory hs hp h
  refine ⟨names, hloc, hclean, ?_⟩
  rw [Artifact.location_eq_child, FileStore.locationOf_child,
    if_neg (Artifact.fileName_ne_parent _), Artifact.fileName, hpieces]
  unfold FileStore.locationOf
  rw [hfolder, Location.via_append, Location.via_of_proper _ hparent]
  rfl

/-- Sources in different places have artifacts in different places. -/
theorem artifact_injective (hs : s.CleanStart) {p q : Path} (hp : p.Clean) (hq : q.Clean)
    {k : Text} (hkey : key? s root p = some key) (hk : key? s root q = some k)
    (h : s.locationOf (Artifact.location key directory) =
      s.locationOf (Artifact.location k directory)) : s.locationOf p = s.locationOf q := by
  obtain ⟨names, hloc, hclean, hplace⟩ := artifact_location directory hs hp hkey
  obtain ⟨names', hloc', hclean', hplace'⟩ := artifact_location directory hs hq hk
  rw [hplace, hplace', List.append_assoc, List.append_assoc, List.append_cancel_left_eq] at h
  obtain ⟨hinit, hlast⟩ := List.append_inj' h rfl
  have hlast := List.append_cancel_right (List.singleton_inj.mp hlast)
  have hpieces : Artifact.pieces names = Artifact.pieces names' := by
    rw [← Artifact.pieces_eq_concat names, ← Artifact.pieces_eq_concat names', hinit, hlast]
  rw [hloc, hloc', Artifact.pieces_injective hclean hclean' hpieces]

/-- An artifact lies strictly below the build directory. -/
theorem artifact_below (hs : s.CleanStart) (hp : p.Clean) (h : key? s root p = some key) :
    Location.Below (s.locationOf (Artifact.location key directory)) (s.locationOf directory) := by
  obtain ⟨names, -, -, hplace⟩ := artifact_location directory hs hp h
  rw [hplace, List.append_assoc]
  exact Location.below_append (by simp)

/-- The way to the directory of an artifact is the way to the build directory, and goes on below
it. -/
theorem mem_trailOf_folder (hs : s.CleanStart) (hp : p.Clean) (h : key? s root p = some key)
    {l : Location} (hl : l ∈ s.trailOf (Artifact.folder key directory)) :
    l ∈ s.trailOf directory ∨ l.Below (s.locationOf directory) := by
  obtain ⟨names, -, -, -, hfolder, hparent⟩ := folder_names directory hs hp h
  obtain ⟨ns, hns, rfl⟩ := Location.mem_trail.mp hl
  rw [hfolder] at hns
  rcases List.prefix_or_prefix_of_prefix hns (List.prefix_append directory.names _) with hle | hle
  · exact .inl (Location.mem_trail.mpr ⟨ns, hle, rfl⟩)
  obtain ⟨ds, rfl⟩ := hle
  have hds := (List.prefix_append_right_inj _).mp hns
  have hvia : Location.via (s.startOf (Artifact.folder key directory)) (directory.names ++ ds) =
      s.locationOf directory ++ ds := by
    rw [Location.via_append, Location.via_of_proper _ fun h => hparent (hds.subset h)]
    rfl
  rw [hvia]
  by_cases hnil : ds = []
  · rw [hnil, List.append_nil]
    exact .inl (s.locationOf_mem_trailOf directory)
  · exact .inr (Location.below_append hnil)

theorem trailOf_directory_subset (s : FileStore) (key : Text) (directory : Path) :
    s.trailOf directory ⊆ s.trailOf (Artifact.folder key directory) :=
  Location.trail_append_subset _ _ _

end Build

end ManifestTree
