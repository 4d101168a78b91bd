import ManifestTree.Token.Lexeme
import ManifestTree.Yaml

/-!
# The text of scalars

How scalars are written: plain, between quotes, or as a block of lines.  Line ends inside a plain
or quoted scalar fold into a space, or into line ends when empty lines follow.  A block keeps its
line ends, or folds them too.  Line ends are line feeds by now, and the two Unicode separators.
-/

namespace ManifestTree.Yaml

open Text

/-- A place in a YAML text: what is left, and where it stands.  Lines and columns count from
zero. -/
structure Spot where
  /-- The characters from here on. -/
  rest : List Char
  /-- How many characters come before. -/
  index : Nat
  /-- The line. -/
  line : Nat
  /-- The column. -/
  column : Nat
deriving Repr

/-- A character that ends a line. -/
def isBreak (c : Char) : Bool := c = '\n' || c = '\u2028' || c = '\u2029'

/-- A space, a tab or a line end. -/
def isWhite (c : Char) : Bool := c = ' ' || c = '\t' || isBreak c

/-- The end of the text, or a character of a class. -/
def endOr (p : Char → Bool) : List Char → Bool
  | [] => true
  | c :: _ => p c

namespace Spot

/-- Moves over one character.  A byte order mark takes no column. -/
def next (s : Spot) : Spot :=
  match s.rest with
  | [] => s
  | c :: rest =>
    if isBreak c then ⟨rest, s.index + 1, s.line + 1, 0⟩
    else ⟨rest, s.index + 1, s.line, if c = '\ufeff' then s.column else s.column + 1⟩

/-- Moves over some characters. -/
def skip (s : Spot) : Nat → Spot
  | 0 => s
  | n + 1 => s.next.skip n

/-- Moves over the characters of a class. -/
def skipWhile (p : Char → Bool) (s : Spot) : Spot := s.skip (s.rest.takeWhile p).length

/-- Moves over spaces and a comment to the end of the line, and over that; nothing if something
else stands there. -/
def passLine? (s : Spot) : Option Spot :=
  let s := s.skipWhile (· = ' ')
  let s := if s.rest.head? = some '#' then s.skipWhile (fun c => !isBreak c) else s
  if endOr isBreak s.rest then some s.next else none

/-- A document marker stands here: three hyphens or points at the start of a line. -/
def atMarker (s : Spot) : Bool :=
  s.column = 0 && (['-', '-', '-'].isPrefixOf s.rest || ['.', '.', '.'].isPrefixOf s.rest)
    && endOr isWhite (s.rest.drop 3)

end Spot

/-- A line end and the ones after it, folded: a line feed alone is a space, and with others after
it is dropped. -/
def folded (breaks : List Char) : List Char :=
  match breaks with
  | ['\n'] => [' ']
  | '\n' :: more => more
  | _ => breaks

/-! ## Plain scalars -/

/-- A plain scalar goes on with the first of these characters. -/
def continuesPlain (inFlow : Bool) : List Char → Bool
  | [] => false
  | c :: rest =>
    if isWhite c then false
    else if c = ':' then
      !endOr (fun d => isWhite d || (inFlow && [',', '[', ']', '\x7b', '\x7d'].contains d)) rest
    else !(inFlow && [',', '?', '[', ']', '\x7b', '\x7d'].contains c)

/-- How many characters of a plain scalar stand here in a row. -/
def plainRun (inFlow : Bool) : List Char → Nat
  | [] => 0
  | c :: rest => if continuesPlain inFlow (c :: rest) then plainRun inFlow rest + 1 else 0

/-- Line ends and the spaces between them, line by line: the line ends, and the spot after them.
A document marker at the start of a line ends the scan, with nothing to show for it. -/
def plainBreaks : (fuel : Nat) → Spot → Option (List Char) × Spot
  | 0, s => (some [], s)
  | fuel + 1, s =>
    match s.rest with
    | c :: _ =>
      if c = ' ' then plainBreaks fuel s.next
      else if isBreak c then
        if s.next.atMarker then (none, s.next)
        else
          let (more, stop) := plainBreaks fuel s.next
          (more.map (c :: ·), stop)
      else (some [], s)
    | [] => (some [], s)

/-- A plain scalar: its text, the spot after it, and whether it ended at the start of a line.
Lines that go on with it in the block context are indented by at least `indent`. -/
def plainText (inFlow : Bool) (indent : Int) : (fuel : Nat) → Spot → List Char × Spot × Bool
  | 0, s => ([], s, false)
  | fuel + 1, s =>
    let length := if s.rest.head? = some '#' then 0 else plainRun inFlow s.rest
    if length = 0 then ([], s, false)
    else
      let run := s.rest.take length
      let after := s.skip length
      let blanks := after.rest.takeWhile (· = ' ')
      let gap := after.skip blanks.length
      match gap.rest with
      | c :: _ =>
        if isBreak c then
          match plainBreaks (gap.rest.length + 1) gap with
          | (none, stop) => (run, stop, true)
          | (some breaks, stop) =>
            if stop.rest.head? = some '#' || (!inFlow && (stop.column : Int) < indent) then
              (run, stop, true)
            else
              let (more, last, newLine) := plainText inFlow indent fuel stop
              if more.isEmpty then (run, stop, true)
              else (run ++ folded breaks ++ more, last, newLine)
        else if blanks.isEmpty || c = '#' then (run, gap, false)
        else
          let (more, last, newLine) := plainText inFlow indent fuel gap
          if more.isEmpty then (run, gap, false) else (run ++ blanks ++ more, last, newLine)
      | [] => (run, gap, false)

/-! ## Quoted scalars -/

/-- What an escape letter stands for in double quotes. -/
def escapeLetter? (c : Char) : Option Nat :=
  match c with
  | '0' => some 0x00 | 'a' => some 0x07 | 'b' => some 0x08 | 't' => some 0x09 | '\t' => some 0x09
  | 'n' => some 0x0a | 'v' => some 0x0b | 'f' => some 0x0c | 'r' => some 0x0d | 'e' => some 0x1b
  | ' ' => some 0x20 | '\x22' => some 0x22 | '\\' => some 0x5c | '/' => some 0x2f
  | 'N' => some 0x85 | '_' => some 0xa0 | 'L' => some 0x2028 | 'P' => some 0x2029
  | _ => none

/-- How many hexadecimal digits follow an escape letter. -/
def escapeWidth? (c : Char) : Option Nat :=
  match c with
  | 'x' => some 2 | 'u' => some 4 | 'U' => some 8
  | _ => none

/-- Line ends with the blanks around them, up to something else.  A document marker there is an
error. -/
def quotedBreaks : (fuel : Nat) → Spot → Except Fault (List Char × Spot)
  | 0, _ => .error .malformed
  | fuel + 1, s =>
    if s.atMarker then .error .malformed
    else
      let s := s.skipWhile (isBlank ·)
      match s.rest with
      | c :: _ =>
        if isBreak c then (quotedBreaks fuel s.next).map fun p => (c :: p.1, p.2)
        else .ok ([], s)
      | [] => .ok ([], s)

/-- The code point with a number.  The numbers that no code point has are bounded too. -/
def codePoint (n : Nat) : Except Fault CodePoint :=
  match CodePoint.ofNat? n with
  | some p => .ok p
  | none => .error (if n < 0x80000000 then .noSuchValue else .tooLarge)

/-- The text that an escape after its backslash stands for, and the spot after it. -/
def escaped (s : Spot) : Except Fault (Text × Spot) :=
  match s.rest with
  | [] => .error .malformed
  | e :: digits =>
    if isBreak e then do
      let (breaks, after) ← quotedBreaks (digits.length + 1) s.next
      return (Text.ofChars breaks, after)
    else match escapeLetter? e, escapeWidth? e with
      | some n, _ => do return ([← codePoint n], s.next)
      | none, some width =>
        let hex := digits.take width
        if hex.length = width && hex.all (isHexDigit ·) then do
          return ([← codePoint (Lexeme.hexNumber (ofChars hex))], s.skip (1 + width))
        else .error .malformed
      | none, none => .error .malformed

/-- Blanks and line ends between quotes: what they stand for, and the spot after them. -/
def quotedSpace (s : Spot) : Except Fault (Text × Spot) :=
  let blanks := s.rest.takeWhile fun c : Char => isBlank c
  let gap := s.skip blanks.length
  match gap.rest with
  | [] => .error .malformed
  | b :: rest =>
    if isBreak b then do
      let (breaks, after) ← quotedBreaks (rest.length + 1) gap.next
      return (Text.ofChars (folded (b :: breaks)), after)
    else .ok (Text.ofChars blanks, gap)

/-- The text between quotes from here on, and the spot after the closing quote. -/
def quotedBody (double : Bool) : (fuel : Nat) → Spot → Except Fault (Text × Spot)
  | 0, _ => .error .malformed
  | fuel + 1, s =>
    let quote := if double then '\x22' else '\x27'
    let go (part : Text × Spot) : Except Fault (Text × Spot) :=
      (quotedBody double fuel part.2).map fun p => (part.1 ++ p.1, p.2)
    match s.rest with
    | [] => .error .malformed
    | c :: rest =>
      if c = quote then
        if !double && rest.head? = some quote then go (Text.ofChars [quote], s.skip 2)
        else .ok ([], s.next)
      else if double && c = '\\' then escaped s.next >>= go
      else if isBlank c || isBreak c then quotedSpace s >>= go
      else go (Text.ofChars [c], s.next)

/-- A quoted scalar whose opening quote stands here. -/
def quotedText (double : Bool) (s : Spot) : Except Fault (Text × Spot) :=
  quotedBody double (s.rest.length + 1) s.next

/-! ## Blocks of lines -/

/-- What happens to the line ends at the end of a block. -/
inductive Chomping where
  | strip | clip | keep
deriving DecidableEq, Repr

def chomping? : List Char → Option Chomping
  | '+' :: _ => some .keep
  | '-' :: _ => some .strip
  | _ => none

def indentDigit? : List Char → Option Nat
  | c :: _ => if isAsciiDigit c then some (c.toNat - '0'.toNat) else none
  | [] => none

/-- The header of a block after its first sign: chomping and indentation in either order, then
perhaps a comment that is set off, to the end of the line.  An indentation of zero is none. -/
def blockHeader? (s : Spot) : Option (Chomping × Option Nat × Spot) := do
  let first := chomping? s.rest
  let s := if first.isSome then s.next else s
  let digit := indentDigit? s.rest
  let s := if digit.isSome then s.next else s
  let second := if first.isSome || digit.isNone then none else chomping? s.rest
  let s := if second.isSome then s.next else s
  if digit = some 0 || !endOr (fun c => c = ' ' || isBreak c) s.rest then none
  else return ((first.or second).getD .clip, digit, ← s.passLine?)

/-- Empty lines in front of a block whose indentation is not given: their line ends, the widest of
their columns, and the spot after them. -/
def leadingBreaks : (fuel : Nat) → (widest : Nat) → Spot → List Char × Nat × Spot
  | 0, widest, s => ([], widest, s)
  | fuel + 1, widest, s =>
    match s.rest with
    | c :: _ =>
      if c = ' ' then leadingBreaks fuel (max widest s.next.column) s.next
      else if isBreak c then
        let (more, widest, stop) := leadingBreaks fuel widest s.next
        (c :: more, widest, stop)
      else ([], widest, s)
    | [] => ([], widest, s)

/-- Empty lines inside a block: their line ends, and the spot after them with at most `indent`
spaces passed. -/
def innerBreaks (indent : Nat) : (fuel : Nat) → Spot → List Char × Spot
  | 0, s => ([], s)
  | fuel + 1, s =>
    let spaces := (s.rest.takeWhile (· = ' ')).length
    let s := s.skip (min spaces (indent - s.column))
    match s.rest with
    | c :: _ =>
      if isBreak c then
        let (more, stop) := innerBreaks indent fuel s.next
        (c :: more, stop)
      else ([], s)
    | [] => ([], s)

/-- The lines of a block: each with its line end and those of the empty lines after it. -/
def blockLines (indent : Nat) :
    (fuel : Nat) → Spot → List (List Char × List Char × List Char) × Spot
  | 0, s => ([], s)
  | fuel + 1, s =>
    if s.column = indent && !s.rest.isEmpty then
      let line := s.rest.takeWhile fun c => !isBreak c
      let stop := s.skip line.length
      let own := (stop.rest.take 1)
      let (empty, after) := innerBreaks indent (stop.rest.length + 1) stop.next
      let (more, last) := blockLines indent fuel after
      ((line, own, empty) :: more, last)
    else ([], s)

/-- The line begins with a blank, so that folding leaves it alone. -/
def isSpaced (line : List Char) : Bool := line.head?.any (isBlank ·)

/-- What stands between a line and the next one. -/
def joint (fold : Bool) (line own empty next : List Char) : List Char :=
  if fold && own = ['\n'] && !isSpaced line && !isSpaced next then
    if empty.isEmpty then [' '] else empty
  else own ++ empty

def joinLines (fold : Bool) (chomping : Chomping) :
    List (List Char × List Char × List Char) → List Char
  | [] => []
  | [(line, own, empty)] =>
    line ++ match chomping with
      | .strip => []
      | .clip => own
      | .keep => own ++ empty
  | (line, own, empty) :: (next, rest) :: more =>
    line ++ joint fold line own empty next ++ joinLines fold chomping ((next, rest) :: more)

/-- A block scalar whose sign stands here, inside a collection indented by `parent`. -/
def blockText? (fold : Bool) (parent : Int) (s : Spot) : Option (List Char × Spot) := do
  let (chomping, digit, s) ← blockHeader? s.next
  let least := (max 1 (parent + 1)).toNat
  let fuel := s.rest.length + 1
  let (breaks, indent, s) := match digit with
    | some n =>
      let indent := least + n - 1
      let (breaks, s) := innerBreaks indent fuel s
      (breaks, indent, s)
    | none =>
      let (breaks, widest, stop) := leadingBreaks fuel 0 s
      (breaks, max least widest, stop)
  let (lines, stop) := blockLines indent fuel s
  -- Without lines, the empty lines themselves are what chomping is about.
  let front := if lines.isEmpty && chomping ≠ .keep then [] else breaks
  return (front ++ joinLines fold chomping lines, stop)

end ManifestTree.Yaml
