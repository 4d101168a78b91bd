import ManifestTree.Yaml.Key
import ManifestTree.Yaml.Reader

/-!
# Project configuration

The settings of a project and how they are read from YAML.  Every setting that is not given keeps
its default; a setting of the wrong type and any unknown setting are errors.
-/

namespace ManifestTree

/-- The settings of a project. -/
structure Config where
  /-- The directory for artifacts, relative to the project, if they are kept. -/
  buildDirectory : Option Text
  /-- Patterns that select manifests. -/
  includePatterns : List Text
  /-- Patterns that remove files from the selected ones. -/
  excludePatterns : List Text
  /-- The most bytes that a manifest may have. -/
  maxSourceBytes : Option Int
deriving DecidableEq, Repr

namespace Config

/-- The name of the configuration file of a project. -/
def fileName : String := ".manifest-syntax.yaml"

/-- The settings of a project that gives none. -/
def default : Config := ⟨none, [Text.ofString "**/*.pp"], [], none⟩

instance : Inhabited Config := ⟨default⟩

/-- The configuration that a new project starts with. -/
def starterText : String :=
  "# Where `manifest-syntax check` writes parsed trees (omit to skip artifacts).\n" ++
  "build-directory: build\n" ++
  "# Glob patterns, relative to this file, selecting the manifests to parse.\n" ++
  "include:\n" ++
  "  - \"**/*.pp\"\n" ++
  "exclude: []\n" ++
  "# Manifests larger than this many bytes are rejected before parsing.\n" ++
  "max-source-bytes: 1048576\n"

/-! ## Errors -/

/-- What a setting must be. -/
inductive Requirement where
  | string | stringList | positiveInteger
deriving DecidableEq, Repr

def Requirement.phrase : Requirement → String
  | .string => "a string"
  | .stringList => "a list of strings"
  | .positiveInteger => "a positive integer"

/-- What can be wrong with a configuration. -/
inductive Fault where
  /-- The text is no YAML document with a value. -/
  | yaml (fault : Yaml.Fault)
  /-- The document is no mapping. -/
  | notAMapping
  /-- Some settings are unknown, here by their printed names. -/
  | unknownFields (names : List Text)
  /-- Some settings are unknown and their names have no order among them. -/
  | unsortableFields
  /-- A setting is of the wrong type. -/
  | wrongType (key : String) (requirement : Requirement)
deriving DecidableEq, Repr

/-- Texts with a comma and a space between them. -/
def commaList (ts : List Text) : Text := (ts.intersperse (Text.ofString ", ")).flatten

/-- The message for a fault in a configuration with a label, if it has one. -/
def Fault.message? (label : Text) : Fault → Option Text
  | .yaml .malformed => some (Text.ofString "Invalid YAML in " ++ label)
  | .yaml _ => none
  | .notAMapping => some (label ++ Text.ofString ": config must be a YAML mapping")
  | .unknownFields names =>
    some (label ++ Text.ofString ": unknown field(s): " ++ commaList names)
  | .unsortableFields => none
  | .wrongType key requirement =>
    some (label ++ Text.ofString s!": '{key}' must be {requirement.phrase}")

/-! ## Unknown settings -/

/-- The names of the settings. -/
def knownKeys : List String := ["build-directory", "include", "exclude", "max-source-bytes"]

/-- A key is the name of a setting. -/
def isKnown : Yaml.Atom → Bool
  | .string t => knownKeys.any fun k => Text.ofString k = t
  | _ => false

/-- The fault of having unknown settings, if there are any. -/
def unknownFault? (entries : List (Yaml.Atom × Yaml.Value)) : Option Fault :=
  match (entries.map (·.1)).filter fun k => !isKnown k with
  | [] => none
  | keys =>
    match Yaml.Atom.sort? keys with
    | some sorted => some (.unknownFields (sorted.map Yaml.Atom.text))
    | none => some .unsortableFields

/-! ## Settings -/

/-- The value given for a setting. -/
def setting? (entries : List (Yaml.Atom × Yaml.Value)) (key : String) : Option Yaml.Value :=
  entries.lookup (.string (Text.ofString key))

def text? : Yaml.Value → Option Text
  | .atom (.string t) => some t
  | _ => none

/-- A text, or none for an empty value. -/
def optionalText? : Yaml.Value → Option (Option Text)
  | .atom .null => some none
  | v => (text? v).map some

/-- Texts, none for an empty value. -/
def textList? (document : Yaml.Document) : Yaml.Value → Option (List Text)
  | .atom .null => some []
  | .sequence items => items.mapM fun i => text? (document.value i)
  | .pairs [] => some []
  | _ => none

/-- A whole number above zero, or none for an empty value. -/
def optionalPositive? : Yaml.Value → Option (Option Int)
  | .atom .null => some none
  | .atom (.integer i) => if 0 < i then some (some i) else none
  | _ => none

/-- The value of a setting, read as it must be; the default if it is not given. -/
def readSetting {α : Type} (entries : List (Yaml.Atom × Yaml.Value)) (key : String) (default : α)
    (requirement : Requirement) (read : Yaml.Value → Option α) : Except Fault α :=
  match setting? entries key with
  | none => .ok default
  | some v =>
    match read v with
    | some a => .ok a
    | none => .error (.wrongType key requirement)

/-- The configuration in a YAML document.  An empty one gives the defaults. -/
def ofDocument (document : Yaml.Document) : Except Fault Config :=
  match document.value document.root with
  | .atom .null => .ok default
  | .mapping pairs =>
    let entries := document.entries pairs
    match unknownFault? entries with
    | some fault => .error fault
    | none => do
      let buildDirectory ←
        readSetting entries "build-directory" default.buildDirectory .string optionalText?
      let includePatterns ← readSetting entries "include" default.includePatterns
        .stringList (textList? document)
      let excludePatterns ← readSetting entries "exclude" default.excludePatterns
        .stringList (textList? document)
      let maxSourceBytes ← readSetting entries "max-source-bytes" default.maxSourceBytes
        .positiveInteger optionalPositive?
      return { buildDirectory, includePatterns, excludePatterns, maxSourceBytes }
  | _ => .error .notAMapping

/-- Reads the text of a configuration. -/
def parse (text : List Char) : Except Fault Config :=
  match Yaml.read text with
  | .ok document => ofDocument document
  | .error fault => .error (.yaml fault)

end Config

end ManifestTree
