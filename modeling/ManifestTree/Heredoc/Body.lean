import ManifestTree.Heredoc.ClosingLine
import ManifestTree.Heredoc.Tag
import ManifestTree.Token.Fragments

/-!
# Heredoc bodies

The body of a heredoc is the lines before its first closing line.  The margin is cut from each
line and the last line end chomped, as the closing line's markers ask, and every line is split into
fragments.  An interpolation may run on over later lines, whose fragments then begin where it
ended.
-/

namespace ManifestTree

/-- An opened heredoc whose body is still to come. -/
structure PendingHeredoc where
  /-- Its number in the order of opening. -/
  ticket : Nat
  /-- Its tag. -/
  tag : HeredocTag
  /-- Where the tag stands. -/
  span : Span
deriving DecidableEq, Repr

namespace PendingHeredoc

/-- The offset where a body line ends, with its line feed unless that is chomped.  A carriage
return before a chomped line feed goes too. -/
def lineStop (chomped : Bool) (line : SourceLine) : Nat :=
  let stop := line.start.offset + line.text.length
  if chomped then
    if line.text.getLast? = some (.char '\r') then stop - 1 else stop
  else stop + 1

/-- The cursor after the margin of a body line: at most `indent` blanks, and never past the end
of the line. -/
def afterMargin (indent stop : Nat) (line : SourceLine) : Cursor :=
  let blanks := ((line.text.take indent).takeWhile Text.isBlank).length
  line.start.skip (min blanks (stop - line.start.offset))

/-- Where the fragments of a body line begin, when earlier fragments ended at the cursor `resume`.
Nothing is left of a line that an interpolation ran over. -/
def lineBegin? (indent : Option Nat) (resume : Cursor) (line : SourceLine) (stop : Nat) :
    Option Cursor :=
  if line.start.offset < resume.offset then
    if stop ≤ resume.offset then none else some resume
  else match indent with
    | some n => some (afterMargin n stop line)
    | none => some line.start

/-- The fragments of some body lines.  The margin is cut from each line when `indent` is given. -/
def scanLines (nested : NestedScan) (tag : HeredocTag) (indent : Option Nat) (chomp : Bool) :
    (resume : Cursor) → List SourceLine → Except Failure (List Fragment)
  | _, [] => .ok []
  | resume, line :: more =>
    let stop := lineStop (chomp && more.isEmpty) line
    match lineBegin? indent resume line stop with
    | none => scanLines nested tag indent chomp resume more
    | some start => do
      let (fragments, resume) ←
        Fragments.scan nested ⟨tag.escapeSet, tag.interpolates, .offset stop⟩ start
      return fragments ++ (← scanLines nested tag indent chomp resume more)

/-- The marker token of a closing line. -/
def marker (line : SourceLine) (closing : ClosingText) : Token :=
  let start := line.start.skip closing.indent
  let stop := start.skip (closing.markers + closing.text.length)
  .mk .heredocEnd (start.upTo stop) (start.spanTo stop) .plain

/-- Where scanning goes on after a closing line: after its line feed, or at the end of the
source.  Either way that counts as the start of the next line. -/
def afterClosing (line : SourceLine) : Position :=
  let past := line.start.skip (line.text.length + 1)
  ⟨past.offset, line.start.pos.line + 1, 1⟩

/-- Reads the body of a heredoc that begins at a cursor. -/
def resolve (nested : NestedScan) (pending : PendingHeredoc) (c : Cursor) :
    Except Failure HeredocBody :=
  match splitAtClosing? pending.tag.terminator c.lines with
  | none => reject (.missingTerminator pending.tag.terminator) pending.span
  | some (body, line, closing) => do
    let indent := if closing.trim.margin then some closing.indent else none
    let fragments ← scanLines nested pending.tag indent closing.trim.chomp c body
    let marker := marker line closing
    let span : Span := { Span.between c.pos c.pos with stop := marker.span.stop }
    return .mk pending.ticket fragments closing.trim marker span (afterClosing line)

end PendingHeredoc

end ManifestTree
