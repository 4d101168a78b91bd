import ManifestTree.Notice
import ManifestTree.Parse.Manifest

/-!
# Builds

A build turns source files into trees, keyed by their paths relative to the project.  With a build
directory it keeps an artifact of every tree there, and takes the tree from the artifact as long as
that is strictly newer than the source.

A build stops at the first source that fails.  What it wrote before stays, and so do its notices.
The parts of a build that only look, `Build.kept` and `Build.readSource`, are apart from
`Build.keep`, the one that writes.
-/

namespace ManifestTree

namespace Build

/-! ## What can go wrong -/

/-- Why a source is rejected. -/
inductive Rejection where
  /-- It does not lie in the project. -/
  | outside (root : Path)
  /-- It cannot be read. -/
  | unreadable (key : Text) (error : AccessError)
  /-- It has more bytes than allowed. -/
  | tooLarge (key : Text) (size : Nat) (limit : Int)
  /-- It is no UTF-8. -/
  | notUtf8 (key : Text) (fault : Utf8.Fault)
  /-- It is no manifest. -/
  | invalid (key : Text) (error : SyntaxError)
deriving DecidableEq, Repr

/-- The message for the rejection of a source. -/
def Rejection.message (source : Path) : Rejection → String
  | .outside root => s!"Source file '{source.asString}' is not under '{root.asString}'"
  | .unreadable key e => s!"{key.asString}: cannot read file: {e.message}"
  | .tooLarge key size limit =>
    s!"{key.asString}: file is {size} bytes, larger than the limit of {limit}"
  | .notUtf8 key f => s!"{key.asString}: file is not valid UTF-8: {f.message}"
  | .invalid key e => s!"{key.asString}: {e.message}"

/-- Why a build stops. -/
inductive Fault where
  /-- A source is rejected. -/
  | rejected (source : Path) (reason : Rejection)
  /-- A number in a source cannot be read. -/
  | unparsable (failure : Failure)
  /-- An artifact cannot be passed over. -/
  | damagedArtifact (fault : Artifact.ReadFault)
  /-- A path cannot be used. -/
  | inaccessible (error : AccessError)
deriving Repr

/-! ## Looking -/

/-- What a build goes by. -/
structure Settings where
  /-- The directory of the project. -/
  root : Path
  /-- Where artifacts are kept, if they are. -/
  buildDirectory : Option Path
  /-- The most bytes that a source may have. -/
  maxSourceBytes : Option Int
deriving DecidableEq, Repr

/-- The key of a source: its path relative to the project, with all two dots resolved. -/
def key? (s : FileStore) (root source : Path) : Option Text :=
  ((s.resolve source).relativeTo? (s.resolve root)).map Path.text

/-- What an artifact is good for. -/
inductive Kept where
  /-- There is none, or it is not newer than its source. -/
  | nothing
  /-- It holds the tree of its source. -/
  | tree (manifest : Node)
  /-- It is newer than its source but holds no tree. -/
  | unusable (fault : Artifact.ReadFault)
  /-- The build cannot go on. -/
  | failed (fault : Fault)

/-- What the artifact of a source is good for. -/
def kept (s : FileStore) (source artifact : Path) : Kept :=
  match s.status artifact with
  | .error _ => .nothing
  | .ok stored =>
    match s.status source with
    | .error f => .failed (.inaccessible ⟨f, source⟩)
    | .ok current =>
      if stored.modified ≤ current.modified then .nothing
      else
        match s.read artifact with
        | .error f => .failed (.inaccessible ⟨f, artifact⟩)
        | .ok bytes =>
          match Artifact.ofFile bytes with
          | .ok manifest => .tree manifest
          | .error f => if f.isHarmless then .unusable f else .failed (.damagedArtifact f)

/-- The size is over the limit, if there is one. -/
def isOver (size : Nat) (limit : Option Int) : Bool :=
  limit.any fun most => most < (size : Int)

/-- The text of a source.  Its size is checked before it is read. -/
def readSource (s : FileStore) (key : Text) (source : Path) (limit : Option Int) :
    Except Rejection (List Char) :=
  match s.status source with
  | .error f => .error (.unreadable key ⟨f, source⟩)
  | .ok e =>
    if isOver e.size limit then .error (.tooLarge key e.size (limit.getD 0))
    else
      match s.read source with
      | .error f => .error (.unreadable key ⟨f, source⟩)
      | .ok bytes =>
        match Text.ofFile bytes with
        | .error f => .error (.notUtf8 key f)
        | .ok text => .ok text

/-- The tree of the text of a source. -/
def parseText (key : Text) (source : Path) (text : List Char) : Except Fault Node :=
  match Node.parse (Text.ofChars text) with
  | .ok manifest => .ok manifest
  | .error (.rejected e) => .error (.rejected source (.invalid key e))
  | .error f => .error (.unparsable f)

/-! ## Building -/

/-- A build so far, with its result. -/
structure Run (α : Type) where
  /-- The files now. -/
  store : FileStore
  /-- What was reported. -/
  notices : List Notice
  /-- What came of it. -/
  result : Except Fault α

/-- Keeps the artifact of a tree, if artifacts are kept. -/
def keep (s : FileStore) (artifact : Option Path) (manifest : Node) : Run Node :=
  match artifact with
  | none => ⟨s, [], .ok manifest⟩
  | some path =>
    match s.writeWithParents path (Artifact.toFile manifest) with
    | ⟨s, none⟩ => ⟨s, [.wrote path], .ok manifest⟩
    | ⟨s, some e⟩ => ⟨s, [], .error (.inaccessible e)⟩

/-- The tree of a source from its text. -/
def parseSource (s : FileStore) (key : Text) (source : Path) (limit : Option Int)
    (artifact : Option Path) : Run Node :=
  match readSource s key source limit with
  | .error r => ⟨s, [], .error (.rejected source r)⟩
  | .ok text =>
    let notice := Notice.parsing key text.length
    match parseText key source text with
    | .error f => ⟨s, [notice], .error f⟩
    | .ok manifest =>
      let run := keep s artifact manifest
      { run with notices := notice :: run.notices }

/-- The tree of a source, from its artifact or from its text. -/
def sourceTree (s : FileStore) (key : Text) (source : Path) (settings : Settings) : Run Node :=
  let fresh (artifact : Option Path) := parseSource s key source settings.maxSourceBytes artifact
  match settings.buildDirectory with
  | none => fresh none
  | some directory =>
    let artifact := Artifact.location key directory
    match kept s source artifact with
    | .nothing => fresh (some artifact)
    | .tree manifest => ⟨s, [.reusing key], .ok manifest⟩
    | .failed f => ⟨s, [], .error f⟩
    | .unusable f =>
      let run := fresh (some artifact)
      { run with notices := .ignoring artifact f :: run.notices }

/-- Trees by their keys. -/
abbrev Trees := List (Text × Node)

/-- Sets the tree of a key: in its place if it has one, and else at the end. -/
def Trees.set (key : Text) (manifest : Node) : Trees → Trees
  | [] => [(key, manifest)]
  | t :: ts => if t.1 = key then (key, manifest) :: ts else t :: set key manifest ts

/-- Adds the trees of further sources to those of a build. -/
def addTrees (settings : Settings) (s : FileStore) (trees : Trees) : List Path → Run Trees
  | [] => ⟨s, [], .ok trees⟩
  | source :: sources =>
    match key? s settings.root source with
    | none => ⟨s, [], .error (.rejected source (.outside settings.root))⟩
    | some key =>
      match sourceTree s key source settings with
      | ⟨s, notices, .error f⟩ => ⟨s, notices, .error f⟩
      | ⟨s, notices, .ok manifest⟩ =>
        let run := addTrees settings s (trees.set key manifest) sources
        { run with notices := notices ++ run.notices }

end Build

/-- The trees of some source files by their keys, in the order of the first mention. -/
def FileStore.build (s : FileStore) (settings : Build.Settings) (sources : List Path) :
    Build.Run Build.Trees :=
  Build.addTrees settings s [] sources

end ManifestTree
