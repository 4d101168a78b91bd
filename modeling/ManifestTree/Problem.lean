import ManifestTree.Text.Quoted
import ManifestTree.Token

/-!
# Problems in a source

Every way in which a source can be refused, each with the place it concerns.  `Problem.kind` sorts
the problems, `Problem.wording` says what is wrong, and `SyntaxError.message` adds the place.
A `Failure` is either such an error or one of the two ways in which a number can defeat the reader.
-/

namespace ManifestTree

inductive ProblemKind where
  | lexical | malformedTag | unterminatedHeredoc
  | unexpectedToken | unexpectedOperator | unexpectedEnd | missingBody
  | unterminatedResource | duplicateDefault
deriving DecidableEq, Repr

/-- What can take more than one default. -/
inductive DefaultHolder where
  | selector | caseStatement
deriving DecidableEq, Repr

/-- What the grammar can ask for in a place where several things may stand. -/
inductive Wanted where
  | expression | methodName | parameterVariable | attributeName | closingBrace | declaredName
  | compositionTarget | nodeMatch | resourceType | titleColon
deriving DecidableEq, Repr

/-- The words for what was asked for. -/
def Wanted.phrase : Wanted → String
  | .expression => "an expression"
  | .methodName => "a method name"
  | .parameterVariable => "a parameter variable"
  | .attributeName => "an attribute name"
  | .closingBrace => "'\x7d'"
  | .declaredName => "a name"
  | .compositionTarget => "a class name, reference, variable or string"
  | .nodeMatch => "a node name, regex or 'default'"
  | .resourceType => "a resource type"
  | .titleColon => "':' after resource title"

/-- What can be wrong with a source. -/
inductive Problem where
  | unexpectedCharacter (c : CodePoint)
  | unterminatedComment
  | unterminatedInterpolation
  | unterminatedString
  | unterminatedTag
  | heredocInInterpolation
  | missingVariableName
  | illegalNumber (text : Text)
  | illegalOctal (text : Text)
  | emptyTag
  | illegalTag (text : Text)
  | illegalTerminator (text : Text)
  | missingTerminator (terminator : Text)
  /-- One of some kinds of tokens was due; the text is what stood there, nothing at the end. -/
  | expected (kinds : List TokenKind) (found : Option Text)
  | unexpectedEnd (wanted : Wanted)
  | unexpectedOperator (text : Text) (wanted : Wanted)
  | unexpectedToken (text : Text) (wanted : Wanted)
  | assignedTarget
  | illegalTypeArgument (text : Text)
  | emptyInterpolation
  | notAChainElement (text : Text)
  | missingBody (found : Text)
  | unterminatedResource (found : Text)
  | missingTitleColon
  | duplicateDefault (holder : DefaultHolder)
deriving DecidableEq, Repr

namespace Problem

/-- The sort of a problem. -/
def kind : Problem → ProblemKind
  | .unexpectedCharacter _ | .unterminatedComment | .unterminatedInterpolation
  | .unterminatedString | .unterminatedTag | .heredocInInterpolation | .missingVariableName
  | .illegalNumber _ | .illegalOctal _ => .lexical
  | .emptyTag | .illegalTag _ | .illegalTerminator _ => .malformedTag
  | .missingTerminator _ => .unterminatedHeredoc
  | .expected _ none | .unexpectedEnd _ => .unexpectedEnd
  | .unexpectedOperator _ _ => .unexpectedOperator
  | .expected _ (some _) | .unexpectedToken _ _ | .assignedTarget | .illegalTypeArgument _
  | .emptyInterpolation | .notAChainElement _ => .unexpectedToken
  | .missingBody _ => .missingBody
  | .unterminatedResource _ | .missingTitleColon => .unterminatedResource
  | .duplicateDefault _ => .duplicateDefault

/-- A text between quotes, where the end of input is quoted like any other text. -/
private def quotedOrEnd (text : Text) : String :=
  Text.quotedString (if text.isEmpty then Text.ofString "end of input" else text)

def wording : Problem → String
  | .unexpectedCharacter c => s!"Unexpected character: {Text.quotedString [c]}"
  | .unterminatedComment => "Unterminated block comment"
  | .unterminatedInterpolation => "Unterminated interpolation"
  | .unterminatedString => "Unterminated string literal"
  | .unterminatedTag => "Unterminated heredoc tag"
  | .heredocInInterpolation => "Heredoc cannot be opened inside an interpolation"
  | .missingVariableName => "Expected a variable name after '$'"
  | .illegalNumber t => s!"Illegal number: {Text.quotedString t}"
  | .illegalOctal t => s!"Illegal octal number: {Text.quotedString t}"
  | .emptyTag => "Empty heredoc tag"
  | .illegalTag t => s!"Illegal heredoc tag {Text.quotedString t}"
  | .illegalTerminator t => s!"Illegal heredoc terminator {Text.quotedString t}"
  | .missingTerminator t =>
    s!"Unterminated heredoc: no line matches terminator {Text.quotedString t}"
  | .expected kinds found =>
    let wanted := ", ".intercalate (kinds.map fun k => Text.quotedChars k.spelling.toList)
    let got := match found with
      | some t => Text.quotedString t
      | none => "end of input"
    s!"Expected {wanted}, got {got}"
  | .unexpectedEnd w => s!"Expected {w.phrase}, got end of input"
  | .unexpectedOperator t w => s!"Unexpected operator {Text.quotedString t}, expected {w.phrase}"
  | .unexpectedToken t w => s!"Unexpected token {Text.quotedString t}, expected {w.phrase}"
  | .assignedTarget => "Left side of '=' must be a variable or an array"
  | .illegalTypeArgument t => s!"Illegal type argument {Text.quotedString t}"
  | .emptyInterpolation => "Empty interpolation"
  | .notAChainElement t =>
    s!"Expected a resource, reference or collector after arrow, got {Text.quotedString t}"
  | .missingBody t => s!"Expected '\x7b' to open a body, got {quotedOrEnd t}"
  | .unterminatedResource t =>
    s!"Unterminated resource call: expected '\x7d', got {quotedOrEnd t}"
  | .missingTitleColon => "Unterminated resource call: expected ':'"
  | .duplicateDefault .selector => "Selector has more than one default"
  | .duplicateDefault .caseStatement => "Case statement has more than one default"

end Problem

/-- A problem and the span it concerns. -/
structure SyntaxError where
  /-- What is wrong. -/
  problem : Problem
  /-- Where. -/
  span : Span
deriving DecidableEq, Repr

namespace SyntaxError

/-- The sort of the problem. -/
def kind (e : SyntaxError) : ProblemKind := e.problem.kind

/-- The problem in words, after the line and column. -/
def message (e : SyntaxError) : String :=
  s!"Line {e.span.line}, column {e.span.column}: {e.problem.wording}"

end SyntaxError

/-- Why a source has no tree. -/
inductive Failure where
  /-- The source is refused. -/
  | rejected (error : SyntaxError)
  /-- A token begins with a digit sign that is no decimal digit, so no number can be read. -/
  | digitSign (span : Span)
  /-- An octal literal holds a digit of another script whose value is eight or nine. -/
  | octalDigit (text : Text)
  /-- The bound on the work was too small for the source. -/
  | exhausted
deriving DecidableEq, Repr

/-- Refuses a source. -/
def reject {α : Type} (problem : Problem) (span : Span) : Except Failure α :=
  .error (.rejected ⟨problem, span⟩)

end ManifestTree
