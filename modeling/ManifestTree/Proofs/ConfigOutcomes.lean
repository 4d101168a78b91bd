import ManifestTree.Config.Load
import ManifestTree.Proofs.YamlKeys

/-!
# What becomes of a configuration

A configuration has what its document gives for each setting, and the defaults for all others.  A
document that gives no configuration is refused with a message, unless it has unknown settings whose
names have no order among them.  A file is refused with a message too, unless it holds no UTF-8.
-/

namespace ManifestTree

/-! ## Keys in order -/

namespace Yaml.Atom

/-- At most one atom, or atoms of one kind. -/
def Sortable (keys : List Atom) : Prop := keys.length ≤ 1 ∨ ∃ k, ∀ a ∈ keys, a.kind? = some k

theorem sort?_of_sortable {keys : List Atom} (h : Sortable keys) :
    ∃ sorted, sort? keys = some sorted ∧ sorted.Perm keys := by
  match keys with
  | [] => exact ⟨[], rfl, .refl _⟩
  | [a] => exact ⟨[a], rfl, .refl _⟩
  | a :: b :: more =>
    obtain h | ⟨k, h⟩ := h
    · simp at h
    obtain ⟨ha, hmore⟩ := List.forall_mem_cons.mp h
    have hall : ((b :: more).all fun b => b.kind? = some k) = true :=
      List.all_eq_true.mpr fun c hc => decide_eq_true (hmore c hc)
    refine ⟨(a :: b :: more).mergeSort le, ?_, List.mergeSort_perm _ _⟩
    simp only [sort?, ha, hall, if_true]

theorem sort?_of_not_sortable {keys : List Atom} (h : ¬ Sortable keys) : sort? keys = none := by
  match keys with
  | [] => exact (h (.inl (Nat.zero_le _))).elim
  | [a] => exact (h (.inl le_rfl)).elim
  | a :: b :: more =>
    simp only [sort?]
    split
    · next k hk =>
      refine if_neg fun hall => h (.inr ⟨k, List.forall_mem_cons.mpr ⟨hk, fun c hc => ?_⟩⟩)
      exact of_decide_eq_true (List.all_eq_true.mp hall c hc)
    · rfl

end Yaml.Atom

namespace Config

open Yaml (Atom Value Document)

/-! ## What settings mean -/

/-- The texts that a value of a document gives where one is optional. -/
inductive MeansText : Value → Option Text → Prop
  | null : MeansText (.atom .null) none
  | text (t : Text) : MeansText (.atom (.string t)) (some t)

/-- The lists of texts that a value of a document gives. -/
inductive MeansTexts (d : Document) : Value → List Text → Prop
  | null : MeansTexts d (.atom .null) []
  | sequence {items : List Yaml.NodeId} {ts : List Text} :
      items.map d.value = ts.map (fun t => .atom (.string t)) → MeansTexts d (.sequence items) ts
  | pairs : MeansTexts d (.pairs []) []

/-- The numbers above zero that a value gives where one is optional. -/
inductive MeansPositive : Value → Option Int → Prop
  | null : MeansPositive (.atom .null) none
  | integer {i : Int} : 0 < i → MeansPositive (.atom (.integer i)) (some i)

theorem text?_eq_some {v : Value} {t : Text} : text? v = some t ↔ v = .atom (.string t) := by
  constructor
  · intro h
    unfold text? at h
    split at h
    · cases h
      rfl
    · cases h
  · rintro rfl
    rfl

theorem meansText_of_optionalText? {v : Value} {t : Option Text} (h : optionalText? v = some t) :
    MeansText v t := by
  unfold optionalText? at h
  split at h
  · cases h
    exact .null
  · obtain ⟨u, hu, rfl⟩ := Option.map_eq_some_iff.mp h
    rw [text?_eq_some.mp hu]
    exact .text u

theorem map_value_of_mapM {d : Document} {items : List Yaml.NodeId} {ts : List Text}
    (h : (items.mapM fun i => text? (d.value i)) = some ts) :
    items.map d.value = ts.map fun t => .atom (.string t) := by
  induction items generalizing ts with
  | nil =>
    cases h
    rfl
  | cons i items ih =>
    rw [List.mapM_cons] at h
    obtain ⟨t, ht, h⟩ := Option.bind_eq_some_iff.mp h
    obtain ⟨us, hus, h⟩ := Option.bind_eq_some_iff.mp h
    cases h
    rw [List.map_cons, List.map_cons, ih hus, text?_eq_some.mp ht]

theorem meansTexts_of_textList? {d : Document} {v : Value} {ts : List Text}
    (h : textList? d v = some ts) : MeansTexts d v ts := by
  unfold textList? at h
  split at h
  · cases h
    exact .null
  · next items =>
    exact .sequence (map_value_of_mapM h)
  · cases h
    exact .pairs
  · cases h

theorem meansPositive_of_optionalPositive? {v : Value} {i : Option Int}
    (h : optionalPositive? v = some i) : MeansPositive v i := by
  unfold optionalPositive? at h
  split at h
  · cases h
    exact .null
  · split at h
    · next hi =>
      cases h
      exact .integer hi
    · cases h
  · cases h

/-! ## Documents -/

variable {α : Type} {entries : List (Atom × Value)} {key : String} {default a : α} {f : Fault}

/-- What a setting is: its default if none is given, else what a given value means. -/
def Given (Means : Value → α → Prop) (entries : List (Atom × Value)) (key : String)
    (default a : α) : Prop :=
  ((∀ e ∈ entries, e.1 ≠ .string (Text.ofString key)) ∧ a = default) ∨
    ∃ v, (.string (Text.ofString key), v) ∈ entries ∧ Means v a

/-- The entries of the mapping that a document consists of; an empty document has none. -/
def rootEntries (d : Document) : List (Atom × Value) :=
  match d.value d.root with
  | .mapping pairs => d.entries pairs
  | _ => []

/-- The keys of a document that are no settings. -/
def unknownKeys (d : Document) : List Atom := ((rootEntries d).map (·.1)).filter fun k => !isKnown k

/-- A configuration is what a document gives: nothing, or a mapping of settings. -/
structure Fits (d : Document) (c : Config) : Prop where
  shape : d.value d.root = .atom .null ∨ ∃ pairs, d.value d.root = .mapping pairs
  known : ∀ e ∈ rootEntries d, ∃ key ∈ knownKeys, e.1 = .string (Text.ofString key)
  buildDirectory :
    Given MeansText (rootEntries d) "build-directory" Config.default.buildDirectory c.buildDirectory
  includePatterns :
    Given (MeansTexts d) (rootEntries d) "include" Config.default.includePatterns c.includePatterns
  excludePatterns :
    Given (MeansTexts d) (rootEntries d) "exclude" Config.default.excludePatterns c.excludePatterns
  maxSourceBytes :
    Given MeansPositive (rootEntries d) "max-source-bytes" Config.default.maxSourceBytes
      c.maxSourceBytes

/-- There is a message for a fault, wherever the configuration is from. -/
def Fault.Reported (f : Fault) : Prop := ∀ label, (f.message? label).isSome

theorem readSetting_given {Means : Value → α → Prop} {requirement : Requirement}
    {read : Value → Option α} (hread : ∀ v b, read v = some b → Means v b)
    (h : readSetting entries key default requirement read = .ok a) :
    Given Means entries key default a := by
  unfold readSetting setting? at h
  split at h
  · next hnone =>
    cases h
    refine .inl ⟨fun e he hkey => ?_, rfl⟩
    have hne := List.lookup_eq_none_iff.mp hnone e he
    exact bne_iff_ne.mp hne hkey.symm
  · next v hv =>
    split at h
    · next b hb =>
      cases h
      obtain ⟨before, after, rfl, -⟩ := List.lookup_eq_some_iff.mp hv
      exact .inr ⟨v, by simp, hread v _ hb⟩
    · cases h

theorem readSetting_reported {requirement : Requirement} {read : Value → Option α}
    (h : readSetting entries key default requirement read = .error f) : f.Reported := by
  unfold readSetting at h
  split at h
  · cases h
  · split at h
    · cases h
    · cases h
      exact fun label => rfl

theorem isKnown_iff {k : Atom} :
    isKnown k ↔ ∃ key ∈ knownKeys, k = .string (Text.ofString key) := by
  unfold isKnown
  split
  · next t =>
    simp only [List.any_eq_true, decide_eq_true_eq, Atom.string.injEq, eq_comm (b := t)]
  · next hk =>
    refine ⟨fun h => (Bool.false_ne_true h).elim, fun h => ?_⟩
    obtain ⟨key, -, rfl⟩ := h
    exact (hk _ rfl).elim

theorem known_of_unknownKeys {d : Document} (h : unknownKeys d = []) :
    ∀ e ∈ rootEntries d, ∃ key ∈ knownKeys, e.1 = .string (Text.ofString key) := by
  intro e he
  have hk := List.filter_eq_nil_iff.mp h e.1 (List.mem_map_of_mem he)
  exact isKnown_iff.mp (by simpa using hk)

theorem fits_default {d : Document} (h : d.value d.root = .atom .null) : Fits d .default := by
  have hnone : rootEntries d = [] := by
    unfold rootEntries
    rw [h]
  have hgiven {α : Type} (Means : Value → α → Prop) (key : String) (default : α) :
      Given Means (rootEntries d) key default default :=
    .inl ⟨hnone ▸ List.forall_mem_nil _, rfl⟩
  refine ⟨.inl h, ?_, hgiven _ _ _, hgiven _ _ _, hgiven _ _ _, hgiven _ _ _⟩
  rw [hnone]
  exact List.forall_mem_nil _

/-- Settings are read one after another, and the first that means nothing is refused. -/
theorem ofDocument_mapping {d : Document} {pairs : List (Yaml.NodeId × Yaml.NodeId)}
    (hroot : d.value d.root = .mapping pairs) (h : unknownKeys d = []) :
    (∃ c, ofDocument d = .ok c ∧ Fits d c) ∨ ∃ f, ofDocument d = .error f ∧ f.Reported := by
  have hentries : d.entries pairs = rootEntries d := by
    unfold rootEntries
    rw [hroot]
  have hnone : unknownFault? (rootEntries d) = none := by
    unfold unknownFault?
    rw [show ((rootEntries d).map (·.1)).filter (fun k => !isKnown k) = [] from h]
  unfold ofDocument
  rw [hroot]
  simp only [hentries, hnone]
  cases hbuild : readSetting (rootEntries d) "build-directory" Config.default.buildDirectory
    .string optionalText? with
  | error f => exact .inr ⟨f, rfl, readSetting_reported hbuild⟩
  | ok buildDirectory =>
  cases hinclude : readSetting (rootEntries d) "include" Config.default.includePatterns
    .stringList (textList? d) with
  | error f => exact .inr ⟨f, rfl, readSetting_reported hinclude⟩
  | ok includePatterns =>
  cases hexclude : readSetting (rootEntries d) "exclude" Config.default.excludePatterns
    .stringList (textList? d) with
  | error f => exact .inr ⟨f, rfl, readSetting_reported hexclude⟩
  | ok excludePatterns =>
  cases hmax : readSetting (rootEntries d) "max-source-bytes" Config.default.maxSourceBytes
    .positiveInteger optionalPositive? with
  | error f => exact .inr ⟨f, rfl, readSetting_reported hmax⟩
  | ok maxSourceBytes =>
  refine .inl ⟨⟨buildDirectory, includePatterns, excludePatterns, maxSourceBytes⟩, rfl, ?_⟩
  exact {
    shape := .inr ⟨pairs, hroot⟩
    known := known_of_unknownKeys h
    buildDirectory := readSetting_given (fun _ _ => meansText_of_optionalText?) hbuild
    includePatterns := readSetting_given (fun _ _ => meansTexts_of_textList?) hinclude
    excludePatterns := readSetting_given (fun _ _ => meansTexts_of_textList?) hexclude
    maxSourceBytes := readSetting_given (fun _ _ => meansPositive_of_optionalPositive?) hmax }

/-- A document without unknown keys gives what its settings mean, or it is refused. -/
theorem ofDocument_of_known {d : Document} (h : unknownKeys d = []) :
    (∃ c, ofDocument d = .ok c ∧ Fits d c) ∨ ∃ f, ofDocument d = .error f ∧ f.Reported := by
  cases hroot : d.value d.root with
  | mapping pairs => exact ofDocument_mapping hroot h
  | atom a =>
    unfold ofDocument
    rw [hroot]
    cases a with
    | null => exact .inl ⟨.default, rfl, fits_default hroot⟩
    | _ => exact .inr ⟨.notAMapping, rfl, fun _ => rfl⟩
  | _ =>
    unfold ofDocument
    rw [hroot]
    exact .inr ⟨.notAMapping, rfl, fun _ => rfl⟩

/-- A document with unknown keys is refused for them, whatever else it gives. -/
theorem ofDocument_of_unknown {d : Document} (h : unknownKeys d ≠ []) :
    ofDocument d = .error ((Atom.sort? (unknownKeys d)).elim .unsortableFields fun sorted =>
      .unknownFields (sorted.map Atom.text)) := by
  have hfault : unknownFault? (rootEntries d) =
      some ((Atom.sort? (unknownKeys d)).elim .unsortableFields fun sorted =>
        .unknownFields (sorted.map Atom.text)) := by
    generalize hkeys : unknownKeys d = keys at h
    unfold unknownFault?
    rw [show ((rootEntries d).map (·.1)).filter (fun k => !isKnown k) = keys from hkeys]
    cases keys with
    | nil => exact (h rfl).elim
    | cons k keys =>
      dsimp only
      cases Atom.sort? (k :: keys) <;> rfl
  cases hroot : d.value d.root with
  | mapping pairs =>
    have hentries : rootEntries d = d.entries pairs := by
      unfold rootEntries
      rw [hroot]
    unfold ofDocument
    rw [hroot]
    simp only [← hentries, hfault]
  | _ =>
    refine (h ?_).elim
    unfold unknownKeys rootEntries
    rw [hroot]
    rfl

/-- What can become of a document. -/
structure Answers (d : Document) (outcome : Except Fault Config) : Prop where
  read : ∀ c, outcome = .ok c → Fits d c
  /-- All faults but one have a message. -/
  refused : ∀ f, outcome = .error f → f.Reported ∨ ¬ Atom.Sortable (unknownKeys d)
  /-- Unknown keys are named if they have an order. -/
  named : unknownKeys d ≠ [] → Atom.Sortable (unknownKeys d) →
    ∃ names, outcome = .error (.unknownFields names) ∧
      names.Perm ((unknownKeys d).map Atom.text)
  unsortable : ¬ Atom.Sortable (unknownKeys d) → outcome = .error .unsortableFields

theorem ofDocument_answers (d : Document) : Answers d (ofDocument d) := by
  by_cases hkeys : unknownKeys d = []
  · have hsortable : Atom.Sortable (unknownKeys d) := by
      rw [hkeys]
      exact .inl (Nat.zero_le _)
    obtain ⟨c, hc, hfits⟩ | ⟨f, hf, hreported⟩ := ofDocument_of_known hkeys
    · rw [hc]
      refine ⟨fun c' h => ?_, fun f h => (nomatch h), fun hne => (hne hkeys).elim,
        fun hns => (hns hsortable).elim⟩
      cases h
      exact hfits
    · rw [hf]
      refine ⟨fun c' h => (nomatch h), fun f' h => ?_, fun hne => (hne hkeys).elim,
        fun hns => (hns hsortable).elim⟩
      cases h
      exact .inl hreported
  rw [ofDocument_of_unknown hkeys]
  by_cases hsortable : Atom.Sortable (unknownKeys d)
  · obtain ⟨sorted, hsort, hperm⟩ := Atom.sort?_of_sortable hsortable
    rw [hsort]
    refine ⟨fun c h => (nomatch h), fun f h => ?_, fun _ _ => ⟨_, rfl, hperm.map _⟩,
      fun hns => (hns hsortable).elim⟩
    cases h
    exact .inl fun label => rfl
  · rw [Atom.sort?_of_not_sortable hsortable]
    exact ⟨fun c h => (nomatch h), fun f h => .inr hsortable, fun _ hs => (hsortable hs).elim,
      fun _ => rfl⟩

/-! ## Texts and files -/

/-- What can become of a text. -/
structure Parses (text : List Char) (outcome : Except Fault Config) : Prop where
  unread : ∀ f, Yaml.read text = .error f →
    outcome = .error (.yaml f) ∧ (f = .malformed → (Fault.yaml f).Reported)
  read : ∀ d, Yaml.read text = .ok d → Answers d outcome
  /-- No key of the mapping is left out. -/
  entries : ∀ d pairs, Yaml.read text = .ok d → d.value d.root = .mapping pairs →
    (rootEntries d).map (fun e => (Value.atom e.1, e.2)) =
      pairs.map fun p => (d.value p.1, d.value p.2)

theorem parse_parses (text : List Char) : Parses text (parse text) where
  unread f h := by
    refine ⟨?_, fun he label => he ▸ rfl⟩
    unfold parse
    rw [h]
  read d h := by
    unfold parse
    rw [h]
    exact ofDocument_answers d
  entries d pairs h hroot := by
    unfold rootEntries
    rw [hroot]
    exact (Yaml.read_keyed h).entries_map hroot

/-- What can become of the file at a path. -/
structure Loads (s : FileStore) (path : Path) (outcome : Except LoadFault Config) : Prop where
  unread : ∀ e, s.read path = .error e → ∃ f, outcome = .error f ∧ (f.message? path).isSome
  notUtf8 : ∀ bytes e, s.read path = .ok bytes → Utf8.decode bytes = .error e →
    outcome = .error (.notUtf8 e)
  text : ∀ bytes text, s.read path = .ok bytes → Text.ofFile bytes = .ok text →
    outcome = (parse text).mapError .invalid
  /-- Without a message are a file that holds no UTF-8, a YAML text with a value of its own type
  that does not exist, and unknown settings without an order. -/
  silent : ∀ f, outcome = .error f → f.message? path = none →
    (∃ e, f = .notUtf8 e) ∨ (∃ e, e ≠ .malformed ∧ f = .invalid (.yaml e)) ∨
      f = .invalid .unsortableFields

theorem load_loads (s : FileStore) (path : Path) : Loads s path (load s path) where
  unread e h := by
    unfold load
    rw [h]
    cases e <;> exact ⟨_, rfl, rfl⟩
  notUtf8 bytes e h hd := by
    unfold load Text.ofFile
    simp only [h, hd]
  text bytes text h hd := by
    unfold load
    simp only [h, hd]
    cases parse text <;> rfl
  silent f _ h := by
    cases f with
    | notFound => cases h
    | unreadable e => cases h
    | notUtf8 e => exact .inl ⟨e, rfl⟩
    | invalid f =>
      cases f with
      | yaml e =>
        refine .inr (.inl ⟨e, ?_, rfl⟩)
        rintro rfl
        cases h
      | unsortableFields => exact .inr (.inr rfl)
      | notAMapping => cases h
      | unknownFields names => cases h
      | wrongType key requirement => cases h

/-- The file at a path gives the configuration that its text gives, and a text gives that of its
document, whatever the document is.  All else is refused, with a message but for three kinds of
faults: no UTF-8, a value that YAML cannot give, and unknown settings without an order. -/
theorem load_outcome (s : FileStore) (path : Path) (text : List Char) (d : Document) :
    Loads s path (load s path) ∧ Parses text (parse text) ∧ Answers d (ofDocument d) :=
  ⟨load_loads s path, parse_parses text, ofDocument_answers d⟩

/-- A file that holds the given bytes, and nothing else. -/
def soleFile (bytes : List UInt8) : FileStore := ⟨[([Text.ofString "c"], .file bytes 1)], [], 2⟩

/-- Two unknown settings, a number and a text, are refused without a message, and so is a file of
one byte that is no UTF-8. -/
theorem load_silent :
    (parse "1: a\nb: c\n".toList = .error .unsortableFields ∧
      ¬ Fault.Reported .unsortableFields) ∧
    (∀ path, LoadFault.message? path (.invalid .unsortableFields) = none) ∧
    load (soleFile (Utf8.encode "1: a\nb: c\n".toList)) (Path.ofString "c") =
      .error (.invalid .unsortableFields) ∧
    load (soleFile [0xFF]) (Path.ofString "c") = .error (.notUtf8 ⟨.invalidStart, 0, 0xFF, 1⟩) ∧
    ∀ path, LoadFault.message? path (.notUtf8 ⟨.invalidStart, 0, 0xFF, 1⟩) = none := by
  refine ⟨⟨by decide +kernel, fun h => ?_⟩, fun path => rfl, by decide +kernel, by decide +kernel,
    fun path => rfl⟩
  cases h []

end Config

end ManifestTree
