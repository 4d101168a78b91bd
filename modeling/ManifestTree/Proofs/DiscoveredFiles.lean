import ManifestTree.Discovery
import Mathlib

/-!
# Which files are discovered

The patterns of a configuration are followed one after the other, and each changes the selection as
the one before has left it.  Still only the patterns themselves count, not their order: the files
discovered are those that some pattern includes, without those that some pattern excludes.
-/

namespace ManifestTree

/-! ## The order of paths -/

theorem lexLe_antisymm {α : Type} [DecidableEq α] {le : α → α → Bool}
    (h : ∀ a b, le a b → le b a → a = b) {as bs : List α} (hab : lexLe le as bs)
    (hba : lexLe le bs as) : as = bs := by
  induction as generalizing bs with
  | nil =>
    cases bs with
    | nil => rfl
    | cons b bs => cases hba
  | cons a as ih =>
    cases bs with
    | nil => cases hab
    | cons b bs =>
      by_cases heq : a = b
      · subst heq
        simp only [lexLe, if_true] at hab hba
        rw [ih hab hba]
      · simp only [lexLe, if_neg heq, if_neg (Ne.symm heq)] at hab hba
        exact absurd (h a b hab hba) heq

/-- The dictionary order is transitive where the order of the items is one. -/
theorem lexLe_trans {α : Type} [DecidableEq α] {le : α → α → Bool}
    (hanti : ∀ a b, le a b → le b a → a = b) (htrans : ∀ a b c, le a b → le b c → le a c)
    {as bs cs : List α} (hab : lexLe le as bs) (hbc : lexLe le bs cs) : lexLe le as cs := by
  induction as generalizing bs cs with
  | nil => cases cs <;> rfl
  | cons a as ih =>
    cases bs with
    | nil => cases hab
    | cons b bs =>
      cases cs with
      | nil => cases hbc
      | cons c cs =>
        by_cases h₁ : a = b <;> by_cases h₂ : b = c
        · subst h₁ h₂
          simp only [lexLe, if_true] at hab hbc ⊢
          exact ih hab hbc
        · subst h₁
          simpa only [lexLe, if_neg h₂] using hbc
        · subst h₂
          simpa only [lexLe, if_neg h₁] using hab
        · simp only [lexLe, if_neg h₁, if_neg h₂] at hab hbc ⊢
          -- The first and the last item differ, since items that go both ways are equal.
          have hac : a ≠ c := fun hac => h₁ (hanti a b hab (hac ▸ hbc))
          rw [if_neg hac]
          exact htrans a b c hab hbc

theorem Text.le_antisymm {s t : Text} (hst : le s t) (hts : le t s) : s = t :=
  lexLe_antisymm (fun a b hab hba => CodePoint.ext_val (by
    simp only [decide_eq_true_eq] at hab hba
    omega)) hst hts

theorem Text.le_trans {s t u : Text} (hst : le s t) (htu : le t u) : le s u :=
  lexLe_trans (fun a b hab hba => CodePoint.ext_val (by
    simp only [decide_eq_true_eq] at hab hba
    omega)) (fun a b c hab hbc => by
    simp only [decide_eq_true_eq] at hab hbc ⊢
    omega) hst htu

namespace Path

theorem le_trans {p q r : Path} (hpq : le p q) (hqr : le q r) : le p r :=
  lexLe_trans (fun _ _ => Text.le_antisymm) (fun _ _ _ => Text.le_trans) hpq hqr

/-- Paths that start alike are ordered by all they are. -/
theorem le_antisymm {p q : Path} (h : p.anchor = q.anchor) (hpq : le p q) (hqp : le q p) :
    p = q := by
  have hnames := lexLe_antisymm (fun _ _ => Text.le_antisymm) hpq hqp
  cases p
  cases q
  cases h
  cases hnames
  rfl

/-- A path comes strictly before another. -/
def Before (p q : Path) : Prop := le p q ∧ ¬ le q p

end Path

/-! ## Globs -/

namespace Glob

theorem directoriesFrom_anchor {s : FileStore} {p q : Path} (h : q ∈ directoriesFrom s p) :
    q.anchor = p.anchor := by
  unfold directoriesFrom at h
  split at h
  · cases h
  rcases List.mem_cons.mp h with rfl | h
  · rfl
  · obtain ⟨x, -, rfl⟩ := List.mem_map.mp h
    rfl

/-- All paths that steps lead to start where the directory does. -/
theorem follow_anchor {s : FileStore} {directoriesOnly : Bool} {steps : List GlobStep}
    {p q : Path} (h : q ∈ follow s directoriesOnly steps p) : q.anchor = p.anchor := by
  induction steps generalizing p with
  | nil => rw [List.mem_singleton.mp h]
  | cons step steps ih =>
    obtain ⟨r, hr, hq⟩ := List.mem_flatMap.mp h
    rw [ih hq]
    cases step with
    | name n =>
      rw [List.mem_singleton.mp (List.mem_of_mem_filter hr)]
      rfl
    | pattern parts =>
      obtain ⟨n, -, rfl⟩ := List.mem_map.mp (List.mem_of_mem_filter hr)
      rfl
    | anyDepth => exact directoriesFrom_anchor hr

theorem select_anchor {g : Glob} {s : FileStore} {root p : Path} (h : p ∈ g.select s root) :
    p.anchor = root.anchor := by
  unfold select at h
  split at h
  · exact follow_anchor h
  · cases h

end Glob

namespace Discovery

variable {s : FileStore} {root : Path}

/-- The pattern is a glob. -/
def Valid (pattern : Text) : Prop := ∃ glob, Glob.ofText pattern = .ok glob

/-- Some pattern among these matches the path below the directory. -/
def Matches (s : FileStore) (root : Path) (patterns : List Text) (p : Path) : Prop :=
  ∃ pattern ∈ patterns, ∃ glob, Glob.ofText pattern = .ok glob ∧ p ∈ glob.select s root

/-- A path that is matched for exclusion rules out another: all below it if it is a directory, and
otherwise itself. -/
def RulesOut (s : FileStore) (excluded p : Path) : Prop :=
  if s.isDirectory excluded then p.isBelow excluded = true else p = excluded

/-! ## Selections -/

/-- The paths in the selection, each once. -/
structure Selection (paths : List Path) (P : Path → Prop) : Prop where
  nodup : paths.Nodup
  mem : ∀ p, p ∈ paths ↔ P p

theorem Selection.add {paths : List Path} {P : Path → Prop} (h : Selection paths P) (p : Path) :
    Selection (add s paths p) fun q => P q ∨ q = p ∧ s.isFile q := by
  unfold Discovery.add
  split
  case isTrue hfile =>
    refine ⟨List.Nodup.insert h.nodup, fun q => ?_⟩
    rw [List.mem_insert_iff, h.mem]
    constructor
    · rintro (rfl | hq)
      · exact .inr ⟨rfl, hfile⟩
      · exact .inl hq
    · rintro (hq | ⟨rfl, -⟩)
      · exact .inr hq
      · exact .inl rfl
  case isFalse hfile =>
    refine ⟨h.nodup, fun q => ?_⟩
    rw [h.mem]
    refine ⟨.inl, ?_⟩
    rintro (hq | ⟨rfl, hq⟩)
    · exact hq
    · exact absurd hq hfile

theorem Selection.remove {paths : List Path} {P : Path → Prop} (h : Selection paths P) (p : Path) :
    Selection (remove s paths p) fun q => P q ∧ ¬ RulesOut s p q := by
  unfold Discovery.remove RulesOut
  split
  · refine ⟨h.nodup.filter _, fun q => ?_⟩
    rw [List.mem_filter, h.mem]
    simp
  · refine ⟨h.nodup.erase p, fun q => ?_⟩
    rw [h.nodup.mem_erase_iff, h.mem, and_comm]

theorem Selection.congr {paths : List Path} {P Q : Path → Prop} (h : Selection paths P)
    (hPQ : ∀ p, P p ↔ Q p) : Selection paths Q :=
  ⟨h.nodup, fun p => (h.mem p).trans (hPQ p)⟩

/-- All that is matched was added, if it leads to a file. -/
theorem Selection.addAll {paths : List Path} {P : Path → Prop} (h : Selection paths P)
    (matched : List Path) : Selection (matched.foldl (Discovery.add s) paths) fun q =>
      P q ∨ q ∈ matched ∧ s.isFile q := by
  induction matched generalizing paths P with
  | nil => exact h.congr (by simp)
  | cons p matched ih =>
    refine (ih (h.add p)).congr fun q => ?_
    rw [List.mem_cons, or_assoc, or_and_right]

/-- All that is matched was removed. -/
theorem Selection.removeAll {paths : List Path} {P : Path → Prop} (h : Selection paths P)
    (matched : List Path) : Selection (matched.foldl (Discovery.remove s) paths) fun q =>
      P q ∧ ∀ p ∈ matched, ¬ RulesOut s p q := by
  induction matched generalizing paths P with
  | nil => exact h.congr (by simp)
  | cons p matched ih =>
    refine (ih (h.remove p)).congr fun q => ?_
    rw [List.forall_mem_cons, and_assoc]

/-! ## Patterns -/

/-- The paths that some patterns match, pattern by pattern. -/
def matched (s : FileStore) (root : Path) (patterns : List Text) : List Path :=
  patterns.flatMap fun pattern =>
    match Glob.ofText pattern with
    | .ok glob => glob.select s root
    | .error _ => []

theorem mem_matched {patterns : List Text} {p : Path} :
    p ∈ matched s root patterns ↔ Matches s root patterns p := by
  simp only [matched, Matches, List.mem_flatMap]
  refine exists_congr fun pattern => and_congr_right fun _ => ?_
  cases Glob.ofText pattern <;> simp

/-- Patterns that are globs change a selection by all that they match. -/
theorem throughPatterns_valid {change : List Path → Path → List Path} {patterns : List Text}
    (h : ∀ t ∈ patterns, Valid t) (paths : List Path) :
    throughPatterns s root change patterns paths =
      .ok ((matched s root patterns).foldl change paths) := by
  induction patterns generalizing paths with
  | nil => rfl
  | cons pattern patterns ih =>
    obtain ⟨⟨glob, hglob⟩, h⟩ := List.forall_mem_cons.mp h
    have hmatched : matched s root (pattern :: patterns) =
        glob.select s root ++ matched s root patterns := by
      rw [matched, List.flatMap_cons, hglob]
      rfl
    rw [throughPatterns, hglob, hmatched, List.foldl_append]
    exact ih h _

/-- What is selected below a directory after all patterns of a configuration. -/
def selected (s : FileStore) (root : Path) (config : Config) : List Path :=
  (matched s root config.excludePatterns).foldl (remove s)
    ((matched s root config.includePatterns).foldl (add s) [])

/-- The path leads to a file that some pattern includes and none excludes. -/
def Found (s : FileStore) (root : Path) (config : Config) (p : Path) : Prop :=
  Matches s root config.includePatterns p ∧ s.isFile p ∧
    ∀ x, Matches s root config.excludePatterns x → ¬ RulesOut s x p

theorem selected_selection (s : FileStore) (root : Path) (config : Config) :
    Selection (selected s root config) (Found s root config) := by
  have hnone : Selection [] fun _ => False := ⟨.nil, by simp⟩
  refine ((hnone.addAll _).removeAll _).congr fun p => ?_
  simp only [Found, false_or, mem_matched, and_assoc]

/-- What is found starts where the directory does. -/
theorem Found.anchor {config : Config} {p : Path} (h : Found s root config p) :
    p.anchor = root.anchor := by
  obtain ⟨⟨pattern, -, glob, -, hp⟩, -⟩ := h
  exact Glob.select_anchor hp

/-! ## Results -/

/-- Every pattern of the configuration is a glob. -/
structure Sound (config : Config) : Prop where
  includes : ∀ t ∈ config.includePatterns, Valid t
  excludes : ∀ t ∈ config.excludePatterns, Valid t

theorem manifests_eq {config : Config} (h : Sound config) :
    config.manifests s root = .ok ((selected s root config).mergeSort Path.le) := by
  rw [Config.manifests, throughPatterns_valid h.includes]
  show (throughPatterns _ _ _ _ _ >>= _) = _
  rw [throughPatterns_valid h.excludes]
  rfl

/-- The paths are those found, in strict order. -/
structure Lists (s : FileStore) (root : Path) (config : Config) (files : List Path) : Prop where
  ordered : files.Pairwise Path.Before
  mem : ∀ p, p ∈ files ↔ Found s root config p

/-- Patterns that are globs discover the files found, in strict order. -/
theorem manifests_lists {config : Config} (h : Sound config) :
    ∃ files, config.manifests s root = .ok files ∧ Lists s root config files := by
  have hselection := selected_selection s root config
  refine ⟨_, manifests_eq h, ?_, fun p => List.mem_mergeSort.trans (hselection.mem p)⟩
  have hsorted := @List.pairwise_mergeSort Path Path.le (fun _ _ _ => Path.le_trans) Path.le_total
    (selected s root config)
  have hnodup := hselection.nodup.perm (List.mergeSort_perm _ Path.le).symm
  refine (hsorted.and hnodup).imp_of_mem fun {p q} hp hq hpq => ?_
  -- All paths found start alike, so two that come before each other are the same.
  refine ⟨hpq.1, fun hqp => hpq.2 (Path.le_antisymm ?_ hpq.1 hqp)⟩
  rw [List.mem_mergeSort, hselection.mem] at hp hq
  rw [hp.anchor, hq.anchor]

theorem Lists.nodup {config : Config} {files : List Path} (h : Lists s root config files) :
    files.Nodup := by
  refine h.ordered.imp fun {p q} hpq heq => ?_
  subst heq
  exact hpq.2 hpq.1

/-- Only the sets of patterns count. -/
theorem Lists.unique {config other : Config} {files more : List Path}
    (h : Lists s root config files) (k : Lists s root other more)
    (hfound : ∀ p, Found s root other p ↔ Found s root config p) : more = files := by
  have hperm : more.Perm files := (List.perm_ext_iff_of_nodup k.nodup h.nodup).mpr fun p => by
    rw [k.mem, h.mem, hfound]
  exact hperm.eq_of_pairwise (fun _ _ _ _ hpq hqp => absurd hqp.1 hpq.2) k.ordered h.ordered

theorem Matches.mono {patterns more : List Text} {p : Path} (h : Matches s root patterns p)
    (hsub : patterns ⊆ more) : Matches s root more p := by
  obtain ⟨pattern, hmem, hglob⟩ := h
  exact ⟨pattern, hsub hmem, hglob⟩

theorem Found.mono {config other : Config} {p : Path} (h : Found s root config p)
    (hin : config.includePatterns ⊆ other.includePatterns)
    (hex : other.excludePatterns ⊆ config.excludePatterns) : Found s root other p :=
  ⟨h.1.mono hin, h.2.1, fun x hx => h.2.2 x (hx.mono hex)⟩

end Discovery

/-- Configurations whose patterns are globs discover, strictly in order, the regular files that some
pattern includes, without those that a pattern excludes: a path that is no directory excludes
itself, and a directory everything below it.  So neither the order of patterns nor their repetition
counts, and more patterns to exclude add no file. -/
theorem Config.manifests_difference {s : FileStore} {root : Path} {config : Config}
    (h : Discovery.Sound config) : ∃ files, config.manifests s root = .ok files ∧
      files.Pairwise Path.Before ∧ files.Nodup ∧
      (∀ p, p ∈ files ↔ Discovery.Matches s root config.includePatterns p ∧ s.isFile p ∧
        ∀ x, Discovery.Matches s root config.excludePatterns x →
          ¬ Discovery.RulesOut s x p) ∧
      (∀ other : Config, (∀ t, t ∈ other.includePatterns ↔ t ∈ config.includePatterns) →
        (∀ t, t ∈ other.excludePatterns ↔ t ∈ config.excludePatterns) →
        other.manifests s root = .ok files) ∧
      ∀ other : Config, other.includePatterns = config.includePatterns →
        config.excludePatterns ⊆ other.excludePatterns → Discovery.Sound other →
        ∃ fewer, other.manifests s root = .ok fewer ∧ fewer ⊆ files := by
  obtain ⟨files, hfiles, hlists⟩ := @Discovery.manifests_lists s root config h
  refine ⟨files, hfiles, hlists.ordered, hlists.nodup, hlists.mem, ?_, ?_⟩
  · intro other hin hex
    have hother : Discovery.Sound other :=
      ⟨fun t ht => h.includes t ((hin t).mp ht), fun t ht => h.excludes t ((hex t).mp ht)⟩
    obtain ⟨same, hsame, k⟩ := @Discovery.manifests_lists s root other hother
    rw [hsame, hlists.unique k fun p => ⟨fun hp => ?_, fun hp => ?_⟩]
    · exact hp.mono (fun t => (hin t).mp) fun t => (hex t).mpr
    · exact hp.mono (fun t => (hin t).mpr) fun t => (hex t).mp
  · intro other hin hex hother
    obtain ⟨fewer, hfewer, k⟩ := @Discovery.manifests_lists s root other hother
    refine ⟨fewer, hfewer, fun p hp => (hlists.mem p).mpr ?_⟩
    exact ((k.mem p).mp hp).mono (hin ▸ List.Subset.refl _) hex

/-- A project with a manifest, another one in a directory of its own, and a file that is none. -/
def vendoredProject : FileStore where
  entries := [([Text.ofString "vendor", Text.ofString "b.pp"], .file [] 1),
    ([Text.ofString "vendor"], .directory 1), ([Text.ofString "notes"], .file [] 1),
    ([Text.ofString "a.pp"], .file [] 1)]
  workingDirectory := []
  clock := 2

/-- Two patterns match a manifest, and a directory with another one is excluded. -/
def vendoredConfig : Config :=
  { Config.default with
    includePatterns := [Text.ofString "**/*.pp", Text.ofString "a.pp"]
    excludePatterns := [Text.ofString "vendor/**", Text.ofString "notes"] }

/-- The one manifest outside of the excluded directory is discovered, and it is with the patterns in
another order. -/
theorem Config.manifests_difference_vendored : Discovery.Sound vendoredConfig ∧
    vendoredConfig.manifests vendoredProject Path.here = .ok [Path.ofString "a.pp"] ∧
    (∀ p, p ∈ [Path.ofString "a.pp"] ↔
      Discovery.Matches vendoredProject Path.here vendoredConfig.includePatterns p ∧
        vendoredProject.isFile p ∧
        ∀ x, Discovery.Matches vendoredProject Path.here vendoredConfig.excludePatterns x →
          ¬ Discovery.RulesOut vendoredProject x p) ∧
    { vendoredConfig with
        includePatterns := vendoredConfig.includePatterns.reverse }.manifests vendoredProject
      Path.here = .ok [Path.ofString "a.pp"] := by
  have hsound : Discovery.Sound vendoredConfig := by
    refine ⟨List.forall_mem_cons.mpr ⟨?_, List.forall_mem_singleton.mpr ?_⟩,
      List.forall_mem_cons.mpr ⟨?_, List.forall_mem_singleton.mpr ?_⟩⟩
    · exact ⟨⟨[.anyDepth, .pattern (NamePart.ofText (Text.ofString "*.pp"))], false⟩, by cbv⟩
    · exact ⟨⟨[.name (Text.ofString "a.pp")], false⟩, by cbv⟩
    · exact ⟨⟨[.name (Text.ofString "vendor"), .anyDepth], false⟩, by cbv⟩
    · exact ⟨⟨[.name (Text.ofString "notes")], false⟩, by cbv⟩
  have hrun : vendoredConfig.manifests vendoredProject Path.here =
      .ok [Path.ofString "a.pp"] := by cbv
  obtain ⟨files, hfiles, -, -, hmem, hsame, -⟩ :=
    @Config.manifests_difference vendoredProject Path.here vendoredConfig hsound
  cases hrun.symm.trans hfiles
  exact ⟨hsound, hrun, hmem, hsame _ (by simp) (by simp)⟩

end ManifestTree
