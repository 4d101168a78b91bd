import ManifestTree.CommandLine
import ManifestTree.FileStore.Listing

/-!
# The program

Performs the command that the arguments name.  The program learns what files there are from a
listing on standard input, reads their contents from disk, runs the command on them, and writes the
files that the command changed.
-/

namespace ManifestTree.CommandLine

def readListed (line : String) : IO (Option (Listed × List UInt8)) := do
  match Listed.ofLine? line.toList with
  | none => return none
  | some item =>
    if item.isDirectory then return some (item, [])
    else return some (item, (← IO.FS.readBinFile item.path.asString).toList)

/-- Reads the files of a listing on standard input. -/
def readFiles : IO FileStore := do
  let here := Path.ofString ((← IO.getEnv "PWD").getD "/")
  let lines := (← (← IO.getStdin).readToEnd).splitOn "\n"
  return FileStore.ofListing here (← lines.filterMapM readListed)

/-- Writes output.  A warning is shown even if notices are not asked for. -/
def writeOutput (verbose : Bool) : Output → IO Unit
  | .out text => IO.print text
  | .err text => IO.eprint text.asString
  | .notice n =>
    if verbose then IO.eprintln (n.line Artifact.ReadFault.message)
    else if n.level = .warning then IO.eprintln (n.message Artifact.ReadFault.message)
    else pure ()

/-- Writes the files that a command changed. -/
def writeFiles (before after : FileStore) : IO Unit :=
  (after.filesChangedFrom before).forM fun file => do
    IO.FS.createDirAll file.1.parent.asString
    IO.FS.writeBinFile file.1.asString (ByteArray.mk file.2.toArray)

/-- Does what the arguments ask and gives the exit status. -/
def runProgram (arguments : List String) : IO UInt32 := do
  let request := Request.ofArguments (arguments.map String.toList)
  let before ← if request.needsFiles then readFiles else pure ⟨[], [], 0⟩
  let outcome := request.run before
  outcome.output.forM (writeOutput request.isVerbose)
  writeFiles before outcome.store
  match outcome.ending with
  | .ok status => return status.toUInt32
  | .error f => do
    IO.eprint (errorText (Text.ofString f.message)).asString
    return 1

end ManifestTree.CommandLine

/-- The program. -/
def main (arguments : List String) : IO UInt32 :=
  ManifestTree.CommandLine.runProgram arguments
