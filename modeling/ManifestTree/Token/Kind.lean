import ManifestTree.Text.CodePoint

/-!
# Kinds of tokens

A token is a keyword, a symbol, or of a class whose text varies.  `TokenKind.spelling` is the word
that messages use for a kind: what a keyword or symbol looks like, or the name of the class.
-/

namespace ManifestTree

/-- The reserved words. -/
inductive Keyword where
  | «if» | «elsif» | «else» | «unless» | «case» | «default» | «and» | «or» | «in»
  | «class» | «define» | «plan» | «type» | «function»
  | «include» | «require» | «contain» | «inherits» | «node»
  | «true» | «false» | «undef»
deriving DecidableEq, Repr

namespace Keyword

/-- Every keyword. -/
def all : List Keyword := [
  .if, .elsif, .else, .unless, .case, .default, .and, .or, .in, .class, .define, .plan, .type,
  .function, .include, .require, .contain, .inherits, .node, .true, .false, .undef]

/-- How a keyword is written. -/
def spelling : Keyword → String
  | .if => "if" | .elsif => "elsif" | .else => "else" | .unless => "unless" | .case => "case"
  | .default => "default" | .and => "and" | .or => "or" | .in => "in" | .class => "class"
  | .define => "define" | .plan => "plan" | .type => "type" | .function => "function"
  | .include => "include" | .require => "require" | .contain => "contain"
  | .inherits => "inherits" | .node => "node" | .true => "true" | .false => "false"
  | .undef => "undef"

def ofSpelling? (word : Text) : Option Keyword := all.find? fun k => Text.ofString k.spelling = word

/-- Keywords that stand for a value and so are never read as names. -/
def isValue : Keyword → Bool
  | .true | .false | .undef | .default => Bool.true
  | _ => Bool.false

end Keyword

/-- Brackets, separators, arrows and operators. -/
inductive Symbol where
  | leftBrace | rightBrace | leftBracket | rightBracket | leftParen | rightParen
  | comma | semicolon | colon | dot | question | pipe | «at» | atAt
  | fatArrow | plusArrow | inEdge | inEdgeSub
  | leftCollect | rightCollect | leftExport | rightExport
  | equals | isEqual | notEqual | isMatch | notMatch | bang | plus | minus | times | slash | percent
  | leftShift | rightShift | less | lessEqual | greater | greaterEqual
deriving DecidableEq, Repr

namespace Symbol

/-- How a symbol is written. -/
def spelling : Symbol → String
  | .leftBrace => "\x7b" | .rightBrace => "\x7d" | .leftBracket => "[" | .rightBracket => "]"
  | .leftParen => "(" | .rightParen => ")" | .comma => "," | .semicolon => ";" | .colon => ":"
  | .dot => "." | .question => "?" | .pipe => "|" | .at => "@" | .atAt => "@@"
  | .fatArrow => "=>" | .plusArrow => "+>" | .inEdge => "->" | .inEdgeSub => "~>"
  | .leftCollect => "<|" | .rightCollect => "|>" | .leftExport => "<<|" | .rightExport => "|>>"
  | .equals => "=" | .isEqual => "==" | .notEqual => "!=" | .isMatch => "=~" | .notMatch => "!~"
  | .bang => "!" | .plus => "+" | .minus => "-" | .times => "*" | .slash => "/"
  | .percent => "%" | .leftShift => "<<" | .rightShift => ">>" | .less => "<"
  | .lessEqual => "<=" | .greater => ">" | .greaterEqual => ">="

/-- Every symbol, the longer spellings first, so that the first one a text starts with is the
longest one it starts with. -/
def all : List Symbol := [
  .leftExport, .rightExport, .leftCollect, .rightCollect, .inEdge, .inEdgeSub, .fatArrow,
  .plusArrow, .isEqual, .notEqual, .isMatch, .notMatch, .leftShift, .rightShift, .lessEqual,
  .greaterEqual, .atAt, .leftBrace, .rightBrace, .leftBracket, .rightBracket, .leftParen,
  .rightParen, .comma, .semicolon, .colon, .dot, .question, .pipe, .at, .equals, .bang, .plus,
  .minus, .times, .slash, .percent, .less, .greater]

/-- The longest symbol at the start of a text. -/
def leading? (cs : Text) : Option Symbol :=
  all.find? fun s => (Text.ofString s.spelling).isPrefixOf cs

end Symbol

inductive TokenKind where
  | keyword (k : Keyword)
  | symbol (s : Symbol)
  | name | reference | variable | integer | float | string | regex | heredoc | heredocEnd
  | comment | endOfInput
deriving DecidableEq, Repr

namespace TokenKind

/-- The word that messages use for a kind of token. -/
def spelling : TokenKind → String
  | .keyword k => k.spelling
  | .symbol s => s.spelling
  | .name => "NAME" | .reference => "REF" | .variable => "VARIABLE" | .integer => "INTEGER"
  | .float => "FLOAT" | .string => "STRING" | .regex => "REGEX" | .heredoc => "HEREDOC"
  | .heredocEnd => "HEREDOC_END" | .comment => "COMMENT" | .endOfInput => "EOF"

def isKeyword : TokenKind → Bool
  | .keyword _ => true
  | _ => false

/-- A keyword that does not stand for a value: such a word may be read as a name. -/
def isPlainKeyword : TokenKind → Bool
  | .keyword k => !k.isValue
  | _ => false

/-- Kinds that end a value.  A slash after one of them divides; anywhere else it may open a
regular expression. -/
def endsValue : TokenKind → Bool
  | .name | .reference | .variable | .integer | .float | .string | .regex | .heredoc => true
  | .symbol s => s = .rightParen || s = .rightBracket
  | .keyword k => k.isValue
  | _ => false

/-- The kind of a word that starts like a name: a keyword, or else a name. -/
def ofName (word : Text) : TokenKind :=
  match Keyword.ofSpelling? word with
  | some k => .keyword k
  | none => .name

end TokenKind

end ManifestTree
