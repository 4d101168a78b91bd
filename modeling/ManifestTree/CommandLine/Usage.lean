import ManifestTree.Text.Quoted

/-!
# Usage of the command line

The commands, their flags, and the texts that explain them.  `Topic.usage` is the short form of a
command, `Topic.help` the long one, and `UsageError.message` what is wrong with arguments.
-/

namespace ManifestTree.CommandLine

abbrev Argument := List Char

/-- What usage is about: the program or one of its commands. -/
inductive Topic where
  | program | init | check | dump
deriving DecidableEq, Repr

inductive Flag where
  | help | verbose | indent
deriving DecidableEq, Repr

/-- All spellings of a flag. -/
def Flag.label : Flag → String
  | .help => "-h/--help"
  | .verbose => "-v/--verbose"
  | .indent => "--indent"

namespace Topic

/-- The flags of a topic by their spellings. -/
def flags (t : Topic) : List (String × Flag) :=
  [("-h", .help), ("--help", .help)] ++
    match t with
    | .program => [("-v", .verbose), ("--verbose", .verbose)]
    | .dump => [("--indent", .indent)]
    | .init | .check => []

def commands : List (String × Topic) := [("init", .init), ("check", .check), ("dump", .dump)]

/-- What one types for a topic. -/
def invocation : Topic → String
  | .program => "manifest-syntax"
  | .init => "manifest-syntax init"
  | .check => "manifest-syntax check"
  | .dump => "manifest-syntax dump"

/-- The arguments of a topic. -/
def synopsis : Topic → String
  | .program => "[-h] [-v] COMMAND ..."
  | .init | .check => "[-h] [directory]"
  | .dump => "[-h] [--indent INDENT] file"

/-- The short explanation of a topic. -/
def usage (t : Topic) : String := s!"usage: {t.invocation} {t.synopsis}\n"

/-- The long explanation of a topic, below the short one. -/
def details : Topic → String
  | .program =>
    "manifest-syntax: parse manifests into concrete syntax trees\n" ++
    "\n" ++
    "positional arguments:\n" ++
    "  COMMAND\n" ++
    "    init         Write a default configuration file\n" ++
    "    check        Parse every manifest and report syntax errors\n" ++
    "    dump         Print the syntax tree of one manifest as JSON\n" ++
    "\n" ++
    "options:\n" ++
    "  -h, --help     show this help message and exit\n" ++
    "  -v, --verbose  Log progress to stderr\n"
  | .init =>
    "Create a default .manifest-syntax.yaml in a directory.\n" ++
    "\n" ++
    "positional arguments:\n" ++
    "  directory   Directory to initialize (default: current directory)\n" ++
    "\n" ++
    "options:\n" ++
    "  -h, --help  show this help message and exit\n"
  | .check =>
    "Parse the manifests selected by the configuration and report one line per\n" ++
    "file.\n" ++
    "\n" ++
    "positional arguments:\n" ++
    "  directory   Directory containing the manifests (default: current directory)\n" ++
    "\n" ++
    "options:\n" ++
    "  -h, --help  show this help message and exit\n"
  | .dump =>
    "Parse a single manifest and print its concrete syntax tree as JSON.\n" ++
    "\n" ++
    "positional arguments:\n" ++
    "  file             Manifest file to parse\n" ++
    "\n" ++
    "options:\n" ++
    "  -h, --help       show this help message and exit\n" ++
    "  --indent INDENT  JSON indentation (default: 2)\n"

/-- The whole explanation of a topic. -/
def help (t : Topic) : String := t.usage ++ "\n" ++ t.details

end Topic

/-- What can be wrong with arguments. -/
inductive UsageFault where
  /-- An argument starts more than one flag. -/
  | ambiguous (argument : Argument) (flags : List String)
  /-- A flag that takes no value is given one. -/
  | unwantedValue (flag : Flag) (value : Argument)
  /-- A flag is not given its value. -/
  | missingValue (flag : Flag)
  /-- A value should be a whole number. -/
  | notANumber (flag : Flag) (value : Argument)
  /-- There is no such command. -/
  | unknownCommand (argument : Argument)
  /-- There is no file to dump. -/
  | missingFile
  /-- Arguments are left over. -/
  | unrecognized (arguments : List Argument)
deriving DecidableEq, Repr

/-- What is wrong with arguments, in words. -/
def UsageFault.wording : UsageFault → String
  | .ambiguous a flags =>
    let list := ", ".intercalate flags
    s!"ambiguous option: {String.ofList a} could match {list}"
  | .unwantedValue f v =>
    s!"argument {f.label}: ignored explicit argument {Text.quotedChars v}"
  | .missingValue f => s!"argument {f.label}: expected one argument"
  | .notANumber f v => s!"argument {f.label}: invalid int value: {Text.quotedChars v}"
  | .unknownCommand a =>
    let list := ", ".intercalate (Topic.commands.map fun c => Text.quotedChars c.1.toList)
    s!"argument COMMAND: invalid choice: {Text.quotedChars a} (choose from {list})"
  | .missingFile => "the following arguments are required: file"
  | .unrecognized as =>
    let list := " ".intercalate (as.map String.ofList)
    s!"unrecognized arguments: {list}"

/-- What is wrong with the arguments of a topic. -/
structure UsageError where
  /-- The topic. -/
  topic : Topic
  /-- What is wrong. -/
  fault : UsageFault
deriving DecidableEq, Repr

/-- The message for wrong arguments, after the short explanation of the topic. -/
def UsageError.message (e : UsageError) : String :=
  e.topic.usage ++ s!"{e.topic.invocation}: error: {e.fault.wording}\n"

end ManifestTree.CommandLine
