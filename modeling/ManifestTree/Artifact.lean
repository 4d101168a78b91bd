import ManifestTree.Json.Printer
import ManifestTree.Json.Reader
import ManifestTree.Parse.Manifest
import ManifestTree.Tree.Stored

/-!
# Artifacts

An artifact is the text of a stored manifest together with the version of the format.
`Artifact.serialize` writes it and `Artifact.deserialize` reads it, or says why it cannot.
-/

namespace ManifestTree.Artifact

def version : String := "1"

/-- What ends the name of an artifact. -/
def suffix : String := ".cst.json"

/-- A manifest with its version. -/
def envelope (manifest : Node) : Json :=
  Json.obj [("v", Json.str version), ("manifest", manifest.toJson)]

/-- The text of an artifact, in printable ASCII. -/
def serialize (manifest : Node) : List Char := (envelope manifest).compact

/-- Why a text is no artifact. -/
inductive Fault where
  /-- It is not one JSON value. -/
  | notJson
  /-- It is a value but no object. -/
  | notAnObject
  /-- It is of another version, or of none. -/
  | unsupportedVersion (found : Json)
  /-- It holds no manifest. -/
  | missingManifest
  /-- What it holds is no manifest. -/
  | invalidTree
deriving Repr

mutual

/-- How messages show a JSON value. -/
def shown : Json → List Char
  | .null => "None".toList
  | .bool b => if b then "True".toList else "False".toList
  | .integer i => Json.integerText i
  | .real (.infinite negative) => (if negative then ['-'] else []) ++ "inf".toList
  | .real .nan => "nan".toList
  | .real r => Json.realText r
  | .string t => Text.quoted t
  | .array js => '[' :: shownItems js ++ [']']
  | .object ms => '\x7b' :: shownMembers ms ++ ['\x7d']

/-- Items between commas, as messages show them. -/
def shownItems : List Json → List Char
  | [] => []
  | [j] => shown j
  | j :: js => shown j ++ ',' :: ' ' :: shownItems js

/-- Members between commas, as messages show them. -/
def shownMembers : List (Text × Json) → List Char
  | [] => []
  | [(name, j)] => Text.quoted name ++ ':' :: ' ' :: shown j
  | (name, j) :: ms =>
    Text.quoted name ++ ':' :: ' ' :: shown j ++ ',' :: ' ' :: shownMembers ms

end

def versionMessage (found : Json) : String :=
  s!"Unsupported artifact format version: {String.ofList (shown found)}"

/-- The value is the supported version. -/
def isSupported (v : Json) : Bool :=
  match v with
  | .string t => t = Text.ofString version
  | _ => false

/-- The manifest in a JSON value. -/
def ofJson (j : Json) : Except Fault Node :=
  match j with
  | .object _ =>
    let found := (Stored.member? "v" j).getD .null
    if !isSupported found then .error (.unsupportedVersion found)
    else match Stored.member? "manifest" j with
      | none => .error .missingManifest
      | some tree =>
        match Node.ofJson? (.only .manifest) tree with
        | some manifest => .ok manifest
        | none => .error .invalidTree
  | _ => .error .notAnObject

/-- Reads the text of an artifact. -/
def deserialize (text : List Char) : Except Fault Node :=
  match Json.read text with
  | some j => ofJson j
  | none => .error .notJson

end ManifestTree.Artifact
