import ManifestTree.CommandLine.Usage
import ManifestTree.Number.Written

/-!
# Arguments

`Request.ofArguments` reads what the program is asked to do.  Flags may be cut short as long as
they stay unique, may be given a value after an equals sign, and one-letter flags may share a
hyphen.  Two hyphens end the flags.  Arguments that nothing takes are left over, and are an error
once everything else is right.
-/

namespace ManifestTree.CommandLine

/-- What a command is to do. -/
inductive Command where
  /-- Write the starting configuration into a directory. -/
  | init (directory : Argument)
  /-- Check the manifests of a directory. -/
  | check (directory : Argument)
  /-- Print the tree of a file with an indentation. -/
  | dump (file : Argument) (indent : Int)
deriving DecidableEq, Repr

/-- What the program is asked to do. -/
inductive Request where
  /-- Explain a topic. -/
  | explain (topic : Topic)
  /-- The arguments are wrong. -/
  | refuse (error : UsageError)
  /-- Perform a command, and show all notices if so asked. -/
  | perform (verbose : Bool) (command : Command)
deriving DecidableEq, Repr

/-- Why arguments name no command: an explanation is asked for, or they are wrong. -/
inductive Halt where
  | explain (topic : Topic)
  | refuse (error : UsageError)
deriving DecidableEq, Repr

/-! ## Single arguments -/

/-- Two hyphens, which end the flags. -/
def separator : Argument := ['-', '-']

/-- What is written onto a flag. -/
inductive Attachment where
  /-- Nothing. -/
  | nothing
  /-- A value after an equals sign. -/
  | value (text : Argument)
  /-- More after the letter of a one-letter flag. -/
  | letters (text : Argument)
deriving DecidableEq, Repr

/-- What an argument before the separator can be. -/
inductive Role where
  /-- It stands for itself. -/
  | plain
  /-- It has the form of a flag. -/
  | unknownFlag
  /-- It is a flag. -/
  | flag (flag : Flag) (attachment : Attachment)
deriving DecidableEq, Repr

/-- The flag of a topic with a spelling. -/
def Topic.flag? (t : Topic) (spelling : Argument) : Option Flag :=
  t.flags.lookup (String.ofList spelling)

/-- The part of an argument before an equals sign, and what is written after it. -/
def splitValue (a : Argument) : Argument × Attachment :=
  let name := a.takeWhile (· ≠ '=')
  match a.drop name.length with
  | [] => (name, .nothing)
  | _ :: value => (name, .value value)

/-- A negative number: digits, maybe with a point before or among them. -/
def isNegativeNumber (a : Argument) : Bool :=
  let digits := a.drop 1
  let digits := if digits.getLast? = some '\n' then digits.dropLast else digits
  let fraction := (digits.dropWhile fun c : Char => Text.isDecimal c).drop 1
  a.head? = some '-' &&
    ((!digits.isEmpty && digits.all (Text.isDecimal ·)) ||
      ((digits.dropWhile fun c : Char => Text.isDecimal c).head? = some '.' && !fraction.isEmpty &&
        fraction.all (Text.isDecimal ·)))

/-- The role of an argument that starts with a hyphen and is no flag in full. -/
def roleOfOther (t : Topic) (a : Argument) : Except UsageFault Role :=
  let (name, attachment) := splitValue a
  let candidates :=
    if separator.isPrefixOf a then t.flags.filter fun f => name.isPrefixOf f.1.toList else []
  match candidates with
  | [f] => .ok (.flag f.2 attachment)
  | [] =>
    if isNegativeNumber a || a.contains ' ' then .ok .plain else .ok .unknownFlag
  | fs => .error (.ambiguous a (fs.map (·.1)))

def roleOf (t : Topic) (a : Argument) : Except UsageFault Role :=
  if a.head? ≠ some '-' || a = ['-'] then .ok .plain
  else
    let (name, attachment) := splitValue a
    match t.flag? name with
    | some f => .ok (.flag f attachment)
    | none =>
      match t.flag? (a.take 2) with
      | some f => .ok (.flag f (.letters (a.drop 2)))
      | none => roleOfOther t a

/-- An argument can be the value of a flag before it. -/
def canBeValue (t : Topic) (a : Argument) : Bool :=
  match roleOf t a with
  | .ok .plain => a ≠ separator
  | _ => false

/-- The flags that share a hyphen, and what is left over after them. -/
def sharedFlags (t : Topic) (f : Flag) : Argument → Except UsageFault (List Flag × List Argument)
  | [] => .ok ([f], [])
  | c :: rest =>
    if c = '-' then .error (.unwantedValue f (c :: rest))
    else
      match t.flag? ['-', c] with
      | none => .ok ([f], [['-', c] ++ rest])
      | some next =>
        match rest with
        | '=' :: value => .error (.unwantedValue next value)
        | _ =>
          match sharedFlags t next rest with
          | .ok (fs, left) => .ok (f :: fs, left)
          | .error fault => .error fault

/-- The flags that an argument sets none of which takes a value, and what is left over. -/
def plainFlags (t : Topic) (f : Flag) : Attachment → Except UsageFault (List Flag × List Argument)
  | .nothing => .ok ([f], [])
  | .value v => .error (.unwantedValue f v)
  | .letters cs => sharedFlags t f cs

/-! ## The arguments of a command -/

/-- What a command was given so far. -/
structure Given where
  /-- The directory or the file. -/
  target : Option Argument
  /-- The indentation. -/
  indent : Int
  /-- What is left over. -/
  left : List Argument
deriving DecidableEq, Repr

namespace Given

/-- Nothing was given; the indentation is two. -/
def nothing : Given := ⟨none, 2, []⟩

/-- Leaves arguments over. -/
def leave (g : Given) (as : List Argument) : Given := { g with left := g.left ++ as }

/-- Takes a target if there is none yet, and leaves it over if there is. -/
def take (g : Given) (a : Argument) : Given :=
  if g.target.isSome then g.leave [a] else { g with target := some a }

def setIndent (g : Given) (v : Argument) : Except UsageFault Given :=
  match Written.whole? 10 v with
  | some i => .ok { g with indent := i }
  | none => .error (.notANumber .indent v)

/-- The arguments from the separator on.  The separator itself is taken with a target. -/
def afterSeparator (g : Given) (as : List Argument) : Given :=
  if g.target.isSome then g.leave (separator :: as)
  else
    match as with
    | [] => g
    | a :: as => (g.take a).leave as

end Given

/-- Reads the arguments of a command. -/
def readGiven (t : Topic) (g : Given) : List Argument → Except Halt Given
  | [] => .ok g
  | a :: as =>
    let refuse (fault : UsageFault) : Except Halt Given := .error (.refuse ⟨t, fault⟩)
    if a = separator then .ok (g.afterSeparator as)
    else
      match roleOf t a with
      | .error fault => refuse fault
      | .ok .unknownFlag => readGiven t (g.leave [a]) as
      | .ok .plain =>
        if g.target.isNone && as.head? = some separator then .ok ((g.take a).leave (as.drop 1))
        else readGiven t (g.take a) as
      | .ok (.flag .indent (.value v)) =>
        match g.setIndent v with
        | .ok g => readGiven t g as
        | .error fault => refuse fault
      | .ok (.flag .indent _) =>
        match as with
        | [] => refuse (.missingValue .indent)
        | v :: as =>
          if !canBeValue t v then refuse (.missingValue .indent)
          else
            match g.setIndent v with
            | .ok g => readGiven t g as
            | .error fault => refuse fault
      | .ok (.flag f attachment) =>
        match plainFlags t f attachment with
        | .error fault => refuse fault
        | .ok (flags, left) =>
          if flags.contains .help then .error (.explain t) else readGiven t (g.leave left) as
termination_by as => as.length

/-- The command of a topic with what it was given. -/
def commandOf (t : Topic) (g : Given) : Except Halt (Option Command) :=
  let directory := g.target.getD ['.']
  match t with
  | .program => .ok none
  | .init => .ok (some (.init directory))
  | .check => .ok (some (.check directory))
  | .dump =>
    match g.target with
    | some file => .ok (some (.dump file g.indent))
    | none => .error (.refuse ⟨.dump, .missingFile⟩)

/-! ## The arguments of the program -/

/-- Ends with what is left over, if anything is. -/
def finish (left : List Argument) (request : Request) : Request :=
  if left.isEmpty then request else .refuse ⟨.program, .unrecognized left⟩

def Halt.request : Halt → Request
  | .explain t => .explain t
  | .refuse e => .refuse e

def readCommand (verbose : Bool) (left : List Argument) (name : Argument) (as : List Argument) :
    Request :=
  match Topic.commands.lookup (String.ofList name) with
  | none => .refuse ⟨.program, .unknownCommand name⟩
  | some t =>
    match readGiven t .nothing as with
    | .error h => h.request
    | .ok g =>
      match commandOf t g with
      | .error h => h.request
      | .ok none => finish (left ++ g.left) (.explain .program)
      | .ok (some command) => finish (left ++ g.left) (.perform verbose command)

def readProgram (verbose : Bool) (left : List Argument) : List Argument → Request
  | [] => finish left (.explain .program)
  | a :: as =>
    if a = separator then
      if as.isEmpty then finish (left ++ [a]) (.explain .program)
      else .refuse ⟨.program, .unknownCommand a⟩
    else
      match roleOf .program a with
      | .error fault => .refuse ⟨.program, fault⟩
      | .ok .unknownFlag => readProgram verbose (left ++ [a]) as
      | .ok .plain => readCommand verbose left a as
      | .ok (.flag f attachment) =>
        match plainFlags .program f attachment with
        | .error fault => .refuse ⟨.program, fault⟩
        | .ok (flags, more) =>
          if flags.contains .help then .explain .program
          else readProgram (verbose || flags.contains .verbose) (left ++ more) as

/-- The first argument before the separator that could be more than one flag of the program. -/
def firstAmbiguity : List Argument → Option UsageFault
  | [] => none
  | a :: as =>
    if a = separator then none
    else
      match roleOf .program a with
      | .error fault => some fault
      | .ok _ => firstAmbiguity as

/-- What the program is asked to do. -/
def Request.ofArguments (as : List Argument) : Request :=
  match firstAmbiguity as with
  | some fault => .refuse ⟨.program, fault⟩
  | none => readProgram false [] as

end ManifestTree.CommandLine
