import ManifestTree.Span
import ManifestTree.Token.Kind

/-!
# Tokens

What the scanner finds in a source: tokens with their text and span, the fragments of quoted
strings and heredoc bodies, heredoc tags and resolved heredoc bodies.  An interpolation fragment
holds the tokens between its braces, so tokens and fragments contain each other.
-/

namespace ManifestTree

/-- How a heredoc tag quotes its terminator. -/
inductive Quoting where
  | bare | double | single
deriving DecidableEq, Repr

/-- The white space that the markers on a terminator line remove from the body: the margin, the
last line end, or both. -/
structure Trim where
  /-- Remove the margin from every line. -/
  margin : Bool
  /-- Remove the last line end. -/
  chomp : Bool
deriving DecidableEq, Repr

/-- A parsed heredoc tag. -/
structure HeredocTag where
  /-- The text between the parentheses. -/
  text : Text
  /-- What ends the body. -/
  terminator : Text
  /-- How the terminator is quoted. -/
  quoting : Quoting
  /-- The label after a colon, if any. -/
  label : Option Text
  /-- The escape flags after a slash, if there is one.  No flags after a slash means all. -/
  escapes : Option Text
deriving DecidableEq, Repr

mutual

/-- A token and where it stands. -/
inductive Token where
  | mk (kind : TokenKind) (text : Text) (span : Span) (detail : TokenDetail)

/-- What a token carries besides its text. -/
inductive TokenDetail where
  /-- Nothing. -/
  | plain
  /-- The fragments of a string. -/
  | fragments (items : List Fragment)
  /-- The tag of a heredoc and, once it is resolved, its body. -/
  | heredoc (tag : HeredocTag) (body : Option HeredocBody)

/-- A piece of a string or of a heredoc body. -/
inductive Fragment where
  | mk (text : Text) (span : Span) (piece : Piece)

/-- What a fragment is. -/
inductive Piece where
  /-- Plain characters. -/
  | content
  /-- An escape and the text it stands for. -/
  | escape (value : Text)
  /-- A variable. -/
  | variable
  /-- An interpolated expression: the tokens between the braces and an end of input at the closing
  brace. -/
  | interpolation (tokens : List Token)

/-- The resolved body of a heredoc. -/
inductive HeredocBody where
  | mk (ticket : Nat) (fragments : List Fragment) (trim : Trim) (marker : Token) (span : Span)
    (resume : Position)

end

namespace Token

def kind : Token → TokenKind
  | .mk k _ _ _ => k

def text : Token → Text
  | .mk _ t _ _ => t

def span : Token → Span
  | .mk _ _ s _ => s

def detail : Token → TokenDetail
  | .mk _ _ _ d => d

def fragments (t : Token) : List Fragment :=
  match t.detail with
  | .fragments items => items
  | _ => []

def tag? (t : Token) : Option HeredocTag :=
  match t.detail with
  | .heredoc tag _ => some tag
  | _ => none

def body? (t : Token) : Option HeredocBody :=
  match t.detail with
  | .heredoc _ body => body
  | _ => none

/-- The end of input at a place. -/
def endAt (p : Position) : Token := .mk .endOfInput [] (Span.sized p 0) .plain

instance : Inhabited Token := ⟨endAt Position.start⟩

end Token

namespace Fragment

/-- The source text of the fragment. -/
def text : Fragment → Text
  | .mk t _ _ => t

/-- Where the fragment stands. -/
def span : Fragment → Span
  | .mk _ s _ => s

/-- What the fragment is. -/
def piece : Fragment → Piece
  | .mk _ _ p => p

/-- The decoded value: plain characters stand for themselves, an escape for its value, a variable
for its name without the sigil, and an interpolation for nothing. -/
def value (f : Fragment) : Text :=
  match f.piece with
  | .content => f.text
  | .escape v => v
  | .variable => f.text.drop 1
  | .interpolation _ => []

def tokens (f : Fragment) : List Token :=
  match f.piece with
  | .interpolation ts => ts
  | _ => []

end Fragment

namespace HeredocBody

/-- The number of the heredoc in the order of opening. -/
def ticket : HeredocBody → Nat
  | .mk t _ _ _ _ _ => t

/-- The pieces of the body. -/
def fragments : HeredocBody → List Fragment
  | .mk _ fs _ _ _ _ => fs

/-- What the terminator line asks to trim. -/
def trim : HeredocBody → Trim
  | .mk _ _ t _ _ _ => t

/-- The markers and terminator on the closing line. -/
def marker : HeredocBody → Token
  | .mk _ _ _ m _ _ => m

/-- From the first body line to the end of the terminator. -/
def span : HeredocBody → Span
  | .mk _ _ _ _ s _ => s

/-- The start of the line after the closing line, or the end of the source. -/
def resume : HeredocBody → Position
  | .mk _ _ _ _ _ r => r

end HeredocBody

mutual

/-- How many tokens a token stands for, itself and those within its interpolations. -/
def Token.count : Token → Nat
  | .mk _ _ _ d => d.count + 1

/-- How many tokens lie within what a token carries. -/
def TokenDetail.count : TokenDetail → Nat
  | .plain => 0
  | .fragments items => Fragment.countAll items
  | .heredoc _ none => 0
  | .heredoc _ (some body) => body.count

/-- How many tokens lie within a heredoc body. -/
def HeredocBody.count : HeredocBody → Nat
  | .mk _ fs _ _ _ _ => Fragment.countAll fs

/-- How many tokens lie within a fragment. -/
def Fragment.count : Fragment → Nat
  | .mk _ _ p => p.count

/-- How many tokens lie within a piece. -/
def Piece.count : Piece → Nat
  | .interpolation ts => Token.countAll ts
  | .content | .escape _ | .variable => 0

/-- How many tokens lie within some fragments. -/
def Fragment.countAll : List Fragment → Nat
  | [] => 0
  | f :: fs => f.count + Fragment.countAll fs

/-- How many tokens some tokens stand for. -/
def Token.countAll : List Token → Nat
  | [] => 0
  | t :: ts => t.count + Token.countAll ts

end

end ManifestTree
