import ManifestTree.Build
import ManifestTree.CommandLine.Arguments
import ManifestTree.Config.Load
import ManifestTree.Discovery

/-!
# The command line

What the program does with the files: `init` writes the starting configuration, `check` builds every
manifest of a project and reports on each, and `dump` prints the tree of one file.  `Request.run`
gives the files after it, all that is written, and the exit status.
-/

namespace ManifestTree.CommandLine

inductive Output where
  /-- To standard output. -/
  | out (text : String)
  /-- To standard error. -/
  | err (text : Text)
  /-- A notice. -/
  | notice (notice : Notice)
deriving Repr

/-- A line to standard output. -/
def outLine (text : String) : Output := .out (text ++ "\n")

def errorText (text : Text) : Text := Text.ofString "Error: " ++ text ++ Text.ofString "\n"

/-- A line to standard error that reports an error. -/
def errorLine (text : Text) : Output := .err (errorText text)

/-- What a command has no message for. -/
inductive Fault where
  /-- The configuration cannot be loaded. -/
  | configuration (fault : Config.LoadFault)
  /-- A pattern of the configuration is no glob. -/
  | pattern (fault : Glob.Fault)
  /-- A build stopped for a reason other than a rejected source. -/
  | build (fault : Build.Fault)
  /-- A path cannot be used. -/
  | inaccessible (error : AccessError)
  /-- A number in a source cannot be read. -/
  | unparsable (failure : Failure)
deriving Repr

/-- What stopped the program, in words. -/
def Fault.message : Fault → String
  | .configuration (.notUtf8 f) => f.message
  | .configuration _ => "the configuration cannot be used"
  | .pattern _ => "a pattern of the configuration is no glob"
  | .build (.damagedArtifact f) => f.message
  | .build (.inaccessible e) | .inaccessible e => e.message
  | .build _ | .unparsable _ => "a number in a source cannot be read"

/-- What came of a command. -/
structure Outcome where
  /-- The files now. -/
  store : FileStore
  /-- What was written, in order. -/
  output : List Output
  /-- The exit status, or what stopped the program. -/
  ending : Except Fault Nat

/-! ## Commands -/

/-- Ends with an error message. -/
def failure (s : FileStore) (message : Text) : Outcome := ⟨s, [errorLine message], .ok 1⟩

def missingDirectory (directory : Path) : Text :=
  Text.ofString s!"directory '{directory.asString}' does not exist."

/-- The configuration file of a directory. -/
def configFile (directory : Path) : Path := directory.child (Text.ofString Config.fileName)

/-- Writes the starting configuration into a directory that has none. -/
def init (s : FileStore) (directory : Path) : Outcome :=
  let file := configFile directory
  if !s.contains directory then failure s (missingDirectory directory)
  else if s.contains file then
    failure s (Text.ofString s!"configuration already exists at '{file.asString}'.")
  else
    match s.write file (Utf8.encode Config.starterText.toList) with
    | .ok s => ⟨s, [outLine s!"Initialized manifest-syntax configuration at '{file.asString}'."],
        .ok 0⟩
    | .error f => ⟨s, [], .error (.inaccessible ⟨f, file⟩)⟩

/-- Builds sources one by one, with a line for each, and counts those that are rejected. -/
def checkSources (settings : Build.Settings) (s : FileStore) (failures : Nat) :
    List Path → FileStore × List Output × Except Fault Nat
  | [] => (s, [], .ok failures)
  | source :: sources =>
    let name := ((source.relativeTo? settings.root).getD source).asString
    let run := s.build settings [source]
    let notices := run.notices.map Output.notice
    let next (failures : Nat) (lines : List Output) :=
      let (s, output, result) := checkSources settings run.store failures sources
      (s, notices ++ lines ++ output, result)
    match run.result with
    | .ok _ => next failures [outLine s!"  PASS  {name}"]
    | .error (.rejected path reason) =>
      let message := Text.ofString (reason.message path)
      next (failures + 1) [outLine s!"  FAIL  {name}", errorLine message]
    | .error f => (run.store, notices, .error (.build f))

/-- Checks sources and sums up. -/
def checkAll (settings : Build.Settings) (s : FileStore) (sources : List Path) : Outcome :=
  let count := sources.length
  let (s, output, result) := checkSources settings s 0 sources
  let output := outLine s!"Checking {count} manifest(s)..." :: output
  match result with
  | .error f => ⟨s, output, .error f⟩
  | .ok 0 => ⟨s, output ++ [outLine "No issues found."], .ok 0⟩
  | .ok failures =>
    ⟨s, output ++ [outLine s!"{failures} of {count} manifest(s) failed."], .ok 1⟩

/-- The build directory of a project, if its configuration names one. -/
def buildDirectory? (directory : Path) (config : Config) : Option Path :=
  match config.buildDirectory with
  | none | some [] => none
  | some t => some (directory.join (Path.ofText t))

/-- Checks the manifests of a directory by its configuration.  What lies in the build directory is
no manifest. -/
def checkWith (s : FileStore) (directory : Path) (config : Config) : Outcome :=
  let build := buildDirectory? directory config
  match config.manifests s directory with
  | .error f => ⟨s, [], .error (.pattern f)⟩
  | .ok found =>
    match found.filter fun p => !build.any p.isBelow with
    | [] => ⟨s, [outLine "No manifests found."], .ok 0⟩
    | sources => checkAll ⟨directory, build, config.maxSourceBytes⟩ s sources

/-- Checks the manifests of a directory. -/
def check (s : FileStore) (directory : Path) : Outcome :=
  let file := configFile directory
  if !s.contains directory then failure s (missingDirectory directory)
  else if !s.contains file then
    let outcome := checkWith s directory Config.default
    { outcome with output := .notice (.usingDefaults directory) :: outcome.output }
  else
    match Config.load s file with
    | .ok config => checkWith s directory config
    | .error f =>
      match f.message? file with
      | some message => failure s message
      | none => ⟨s, [], .error (.configuration f)⟩

/-- The text of a file, or why it cannot be read. -/
def readText (s : FileStore) (file : Path) : Except String (List Char) :=
  match s.read file with
  | .error f => .error (AccessError.message ⟨f, file⟩)
  | .ok bytes =>
    match Text.ofFile bytes with
    | .error f => .error f.message
    | .ok text => .ok text

/-- Prints the tree of a file. -/
def dump (s : FileStore) (file : Path) (indent : Int) : Outcome :=
  match readText s file with
  | .error message =>
    failure s (Text.ofString s!"cannot read '{file.asString}': {message}")
  | .ok text =>
    match Node.parse (Text.ofChars text) with
    | .ok manifest =>
      ⟨s, [outLine (String.ofList (manifest.toJson.indented indent.toNat 0))], .ok 0⟩
    | .error (.rejected e) => failure s (Text.ofString s!"{file.asString}: {e.message}")
    | .error f => ⟨s, [], .error (.unparsable f)⟩

/-! ## The program -/

/-- The path that an argument spells. -/
def pathOf (a : Argument) : Path := Path.ofText (Text.ofChars a)

def Command.perform (s : FileStore) : Command → Outcome
  | .init directory => CommandLine.init s (s.resolve (pathOf directory))
  | .check directory => CommandLine.check s (s.resolve (pathOf directory))
  | .dump file indent => CommandLine.dump s (pathOf file) indent

/-- Does what is asked. -/
def Request.run (s : FileStore) : Request → Outcome
  | .explain t => ⟨s, [.out t.help], .ok 0⟩
  | .refuse e => ⟨s, [.err (Text.ofString e.message)], .ok 2⟩
  | .perform _ command => command.perform s

/-- The files matter for what is asked. -/
def Request.needsFiles : Request → Bool
  | .perform _ _ => true
  | _ => false

/-- All notices are asked for. -/
def Request.isVerbose : Request → Bool
  | .perform verbose _ => verbose
  | _ => false

namespace Outcome

def standardOutput (o : Outcome) : String :=
  String.join (o.output.map fun
    | .out text => text
    | _ => "")

/-- The text on standard error, with a line for each notice if they are asked for. -/
def standardError (o : Outcome) (verbose : Bool) (describe : Artifact.ReadFault → String) :
    Text :=
  o.output.flatMap fun
    | .err text => text
    | .notice n => if verbose then Text.ofString (n.line describe ++ "\n") else []
    | .out _ => []

def notices (o : Outcome) : List Notice :=
  o.output.filterMap fun
    | .notice n => some n
    | _ => none

end Outcome

end ManifestTree.CommandLine
