import ManifestTree.Heredoc.Queue

/-!
# Scanning a source

`Token.scan` turns a source into its tokens and its comments.  Between tokens stand blanks, line
ends and comments; at the first line end after a heredoc tag the bodies of the opened heredocs are
read and passed over.  The inside of an interpolation is scanned in the same way up to the brace
that closes it, where no heredoc may be opened and comments are dropped.
-/

namespace ManifestTree

open Text

/-- Where a scan has got to. -/
structure ScanState where
  /-- The next character to read. -/
  cursor : Cursor
  /-- The opener of the interpolation that is scanned, if it is one. -/
  opener : Option Span
  /-- Braces opened and not yet closed. -/
  depth : Nat
  /-- The kind of the token read last. -/
  last : Option TokenKind
  /-- The tokens so far, the latest first. -/
  tokens : List Token
  /-- The comments so far, the latest first. -/
  comments : List Token
  /-- The heredocs that wait for their bodies. -/
  queue : HeredocQueue
  /-- The bodies read so far, in the order of opening. -/
  bodies : List HeredocBody

namespace ScanState

/-- The start of a scan at a cursor. -/
def start (opener : Option Span) (c : Cursor) : ScanState :=
  ⟨c, opener, 0, none, [], [], HeredocQueue.empty, []⟩

/-- How the depth of braces changes with a token. -/
def depthAfter (depth : Nat) : TokenKind → Nat
  | .symbol .leftBrace => depth + 1
  | .symbol .rightBrace => depth - 1
  | _ => depth

/-- Adds the token that ends at a later cursor, and goes on from there. -/
def emit (s : ScanState) (kind : TokenKind) (after : Cursor) (detail : TokenDetail) :
    ScanState :=
  let token := Token.mk kind (s.cursor.upTo after) (s.cursor.spanTo after) detail
  { s with
    cursor := after
    depth := depthAfter s.depth kind
    last := some kind
    tokens := token :: s.tokens }

/-- Adds the comment that ends at a later cursor, and goes on from there. -/
def emitComment (s : ScanState) (after : Cursor) : ScanState :=
  let comment := Token.mk .comment (s.cursor.upTo after) (s.cursor.spanTo after) .plain
  { s with cursor := after, comments := comment :: s.comments }

/-! ## Between tokens -/

/-- Reads the bodies of all waiting heredocs from the cursor on. -/
def resolveHeredocs (nested : NestedScan) (s : ScanState) : Except Failure ScanState := do
  let (bodies, cursor) ← resolveAll nested s.queue.waiting s.cursor
  return { s with cursor, bodies := s.bodies ++ bodies, queue := { s.queue with waiting := [] } }

/-- Passes a line end, and after it the bodies of the heredocs opened before it. -/
def newline (nested : NestedScan) (s : ScanState) : Except Failure ScanState :=
  resolveHeredocs nested { s with cursor := s.cursor.skip 1 }

def blank (s : ScanState) : ScanState := { s with cursor := s.cursor.skip 1 }

/-- Passes a comment that runs to the end of its line. -/
def lineComment (s : ScanState) : ScanState :=
  s.emitComment (s.cursor.skipWhile (· ≠ '\n'))

/-- How many characters come before the next end of a block comment, and that end itself. -/
def blockLength? : Text → Option Nat
  | '*' :: '/' :: _ => some 2
  | _ :: cs => (blockLength? cs).map (· + 1)
  | [] => none

/-- Passes a comment up to the sign that closes it. -/
def blockComment (s : ScanState) : Except Failure ScanState :=
  match blockLength? (s.cursor.rest.drop 2) with
  | some length => .ok (s.emitComment (s.cursor.skip (length + 2)))
  | none => reject .unterminatedComment (s.cursor.here 2)

/-! ## Tokens -/

def readVariable (s : ScanState) : Except Failure ScanState :=
  match Lexeme.variableLength? s.cursor.rest with
  | some length => .ok (s.emit .variable (s.cursor.skip length) .plain)
  | none => reject .missingVariableName (s.cursor.here 1)

/-- How the text between quotes is read: a double-quoted string knows more escapes and
interpolates. -/
def quotedReading (quote : CodePoint) (opener : Span) : Fragments.Reading :=
  if quote = apostrophe then ⟨Lexeme.singleQuoteEscapes, false, .quote quote opener⟩
  else ⟨Lexeme.doubleQuoteEscapes, true, .quote quote opener⟩

def readString (nested : NestedScan) (quote : CodePoint) (s : ScanState) :
    Except Failure ScanState := do
  let reading := quotedReading quote (s.cursor.here 1)
  let (fragments, close) ← Fragments.scan nested reading (s.cursor.skip 1)
  return s.emit .string (close.skip 1) (.fragments fragments)

def numberKind : Lexeme.NumberForm → TokenKind
  | .float => .float
  | .hexadecimal | .integer => .integer

/-- Reads a number.  It must not run on into a word, and a leading zero admits octal digits
only. -/
def readNumber (s : ScanState) : Except Failure ScanState :=
  match Lexeme.number? s.cursor.rest with
  | none => .error (.digitSign (s.cursor.here 1))
  | some (length, form) =>
    let after := s.cursor.skip length
    if after.rest.head?.any isWord then
      reject (.illegalNumber (s.cursor.upTo (after.skip 1))) (after.here 1)
    else if form = .integer && Lexeme.isIllegalOctal (s.cursor.upTo after) then
      reject (.illegalOctal (s.cursor.upTo after)) (s.cursor.spanTo after)
    else .ok (s.emit (numberKind form) after .plain)

/-- Reads a heredoc tag, which must close on its line, and opens the heredoc. -/
def readHeredocTag (s : ScanState) : Except Failure ScanState := do
  let inside := (s.cursor.rest.drop 2).takeWhile fun c => c ≠ .char ')' && c ≠ .char '\n'
  let close := s.cursor.skip (inside.length + 2)
  if close.rest.head? ≠ some (.char ')') then
    reject .unterminatedTag (s.cursor.here 2)
  else if s.opener.isSome then
    reject .heredocInInterpolation (s.cursor.here 2)
  else do
    let after := close.skip 1
    let (pending, queue) ← s.queue.enqueue inside (s.cursor.spanTo after)
    return { s with queue }.emit .heredoc after (.heredoc pending.tag none)

/-- The regular expression at the cursor, if a slash there may open one. -/
def regexLength? (s : ScanState) : Option Nat :=
  if s.last.any TokenKind.endsValue then none else Lexeme.regexLength? s.cursor.rest

def readSymbol (s : ScanState) (c : CodePoint) : Except Failure ScanState :=
  match Symbol.leading? s.cursor.rest with
  | some symbol => .ok (s.emit (.symbol symbol) (s.cursor.skip symbol.spelling.length) .plain)
  | none => reject (.unexpectedCharacter c) (s.cursor.here 1)

/-- Reads a regular expression, a word or a symbol. -/
def readWord (s : ScanState) (c : CodePoint) : Except Failure ScanState :=
  match s.regexLength? with
  | some length => .ok (s.emit .regex (s.cursor.skip length) .plain)
  | none =>
    match Lexeme.nameLength? s.cursor.rest with
    | some length =>
      .ok (s.emit (TokenKind.ofName (s.cursor.rest.take length)) (s.cursor.skip length) .plain)
    | none =>
      match Lexeme.referenceLength? s.cursor.rest with
      | some length => .ok (s.emit .reference (s.cursor.skip length) .plain)
      | none => s.readSymbol c

/-- Reads the token that begins with the character `c`. -/
def readToken (nested : NestedScan) (s : ScanState) (c : CodePoint) : Except Failure ScanState :=
  if c = '$' then s.readVariable
  else if c = doubleQuote || c = apostrophe then s.readString nested c
  else if isDigit c then s.readNumber
  else if c = '@' && s.cursor.rest[1]? = some (.char '(') then s.readHeredocTag
  else s.readWord c

/-! ## The whole scan -/

/-- The brace that closes the interpolation stands at the cursor. -/
def atClosingBrace (s : ScanState) (c : CodePoint) : Bool :=
  s.opener.isSome && s.depth = 0 && c = '\x7d'

/-- Reads what stands at the cursor, a blank, a comment or a token; nothing at the end of the
scanned region. -/
def step (nested : NestedScan) (s : ScanState) : Except Failure (Option ScanState) :=
  match s.cursor.rest with
  | [] => .ok none
  | c :: cs =>
    if c = '\n' then some <$> s.newline nested
    else if c = ' ' || c = '\t' || c = '\r' then .ok (some s.blank)
    else if c = '#' then .ok (some s.lineComment)
    else if c = '/' && cs.head? = some (.char '*') then some <$> s.blockComment
    else if s.atClosingBrace c then .ok none
    else some <$> s.readToken nested c

/-- The tokens with the bodies of their heredocs: the first body belongs to the first heredoc. -/
def attachBodies : List Token → List HeredocBody → List Token
  | [], _ => []
  | .mk .heredoc text span (.heredoc tag _) :: ts, body :: bodies =>
    .mk .heredoc text span (.heredoc tag (some body)) :: attachBodies ts bodies
  | t :: ts, bodies => t :: attachBodies ts bodies

/-- Ends a scan: an interpolation must be closed and every heredoc have its body.  The tokens end
with an end of input. -/
def finish (nested : NestedScan) (s : ScanState) : Except Failure (List Token × ScanState) :=
  match s.opener with
  | some opener =>
    if s.cursor.atEnd then reject .unterminatedInterpolation opener
    else .ok (s.tokens.reverse ++ [Token.endAt s.cursor.pos], s)
  | none => do
    let s ← s.resolveHeredocs nested
    return (attachBodies s.tokens.reverse s.bodies ++ [Token.endAt s.cursor.pos], s)

/-- Scans to the end of the region.  Each step reads at least one character, and an interpolation
begins after its opener, so one more step than there are characters suffices. -/
def run : (fuel : Nat) → ScanState → Except Failure (List Token × ScanState)
  | 0, _ => .error .exhausted
  | fuel + 1, s => do
    let nested : NestedScan := fun opener c => do
      let (tokens, s) ← run fuel (start (some opener) c)
      return (tokens, s.cursor)
    match ← s.step nested with
    | some s => run fuel s
    | none => s.finish nested

end ScanState

/-- Scans the inside of an interpolation whose opener has the given span. -/
def Token.scanNested : NestedScan := fun opener c => do
  let (tokens, s) ← ScanState.run (c.rest.length + 1) (ScanState.start (some opener) c)
  return (tokens, s.cursor)

/-- The tokens of a source, ending with an end of input, and its comments. -/
def Token.scan (source : Text) : Except Failure (List Token × List Token) := do
  let (tokens, s) ← ScanState.run (source.length + 1)
    (ScanState.start none (Cursor.ofSource source))
  return (tokens, s.comments.reverse)

/-- The tokens of a source, with the comments in their places if they are asked for. -/
def Token.tokenize (source : Text) (includeComments : Bool) : Except Failure (List Token) := do
  let (tokens, comments) ← Token.scan source
  if includeComments then
    let merged := (tokens.dropLast ++ comments).mergeSort
      fun a b => decide (a.span.start ≤ b.span.start)
    return merged ++ tokens.getLast?.toList
  else return tokens

end ManifestTree
