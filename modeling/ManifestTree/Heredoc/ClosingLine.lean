import ManifestTree.Cursor
import ManifestTree.Text.Classes
import ManifestTree.Token

/-!
# Closing lines

A heredoc body ends at the first line that reads as blanks, perhaps `|` and blanks, perhaps `-` and
blanks, then the terminator, then blanks and perhaps a carriage return.  `closingText?` reads a line
that way, and `Cursor.splitAtClosing?` finds the first closing line and the body lines before it.
-/

namespace ManifestTree

open Text

/-- A line as a closing line is read. -/
structure ClosingText where
  /-- How many blanks come first. -/
  indent : Nat
  /-- Which markers stand there. -/
  trim : Trim
  /-- How many characters the markers take, with the blanks after them. -/
  markers : Nat
  /-- The text after the markers, without the blanks at its end. -/
  text : Text
deriving DecidableEq, Repr

/-- A marker character and the blanks after it, or nothing: how many characters it takes. -/
def markerLength (mark : CodePoint) : Text → Nat
  | c :: cs => if c = mark then (cs.takeWhile isBlank).length + 1 else 0
  | [] => 0

/-- A line without one carriage return at its end. -/
def dropReturn (line : Text) : Text :=
  if line.getLast? = some (.char '\r') then line.dropLast else line

/-- Reads a line, given without its line feed, as a closing line.  A line with a carriage return
inside is none. -/
def closingText? (line : Text) : Option ClosingText :=
  let line := dropReturn line
  if line.contains '\r' then none
  else
    let indent := (line.takeWhile isBlank).length
    let afterIndent := line.drop indent
    let margin := markerLength '|' afterIndent
    let chomp := markerLength '-' (afterIndent.drop margin)
    let text := afterIndent.drop (margin + chomp)
    some {
      indent
      trim := ⟨margin ≠ 0, chomp ≠ 0⟩
      markers := margin + chomp
      text := (text.reverse.dropWhile isBlank).reverse }

/-- A line of a source: the cursor at its start, and its text without the line feed. -/
structure SourceLine where
  /-- The start of the line. -/
  start : Cursor
  /-- The text up to the line feed or the end of the source. -/
  text : Text
deriving DecidableEq, Repr

/-- The part of a text before its first line feed, and the part after it if there is one. -/
def splitLine : Text → Text × Option Text
  | [] => ([], none)
  | c :: cs =>
    if c = '\n' then ([], some cs)
    else
      let (line, rest) := splitLine cs
      (c :: line, rest)

/-- What follows a line feed is shorter. -/
theorem splitLine_length {cs line rest : Text} (h : splitLine cs = (line, some rest)) :
    rest.length < cs.length := by
  induction cs generalizing line with
  | nil => simp [splitLine] at h
  | cons c cs ih =>
    by_cases hc : c = '\n'
    · simp [splitLine, hc] at h
      simp [h.2]
    · simp only [splitLine, hc, if_false, Prod.mk.injEq] at h
      have := ih (Prod.ext rfl h.2)
      simp only [List.length_cons]
      omega

namespace Cursor

/-- The lines from a cursor to the end of the source.  A line feed at the very end is followed by
an empty line. -/
def lines (c : Cursor) : List SourceLine :=
  match _h : splitLine c.rest with
  | (line, none) => [⟨c, line⟩]
  | (line, some rest) => ⟨c, line⟩ :: lines ⟨c.pos.after (line ++ [.char '\n']), rest⟩
termination_by c.rest.length
decreasing_by exact splitLine_length _h

end Cursor

/-- The first closing line among some lines, with the lines before it. -/
def splitAtClosing? (terminator : Text) :
    List SourceLine → Option (List SourceLine × SourceLine × ClosingText)
  | [] => none
  | line :: more =>
    match closingText? line.text with
    | some closing =>
      if closing.text = terminator then some ([], line, closing)
      else (splitAtClosing? terminator more).map fun p => (line :: p.1, p.2)
    | none => (splitAtClosing? terminator more).map fun p => (line :: p.1, p.2)

end ManifestTree
