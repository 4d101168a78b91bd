import ManifestTree.Bareword
import ManifestTree.Number.Literal
import ManifestTree.Parse.Stream

/-!
# Nodes of single tokens

Names, literals, strings and heredocs: the nodes that one token makes.  The text of an
interpolation is parsed by the grammar that is passed along.
-/

namespace ManifestTree

/-- The segments of a name between its double colons. -/
def splitSegments : Text → List Text
  | ':' :: ':' :: cs => [] :: splitSegments cs
  | c :: cs =>
    match splitSegments cs with
    | segment :: segments => (c :: segment) :: segments
    | [] => [[c]]
  | [] => [[]]

/-- The shape of a scoped name, which is absolute if it begins with a double colon. -/
def Shape.ofName {α : Type} (form : NameForm) : Text → Shape α
  | ':' :: ':' :: cs => .scopedName form (splitSegments cs) true
  | cs => .scopedName form (splitSegments cs) false

namespace Token

/-- The place where a token begins. -/
def position (t : Token) : Position :=
  ⟨t.span.start.toNat, t.span.line.toNat, t.span.column.toNat⟩

/-- A name token as an identifier. -/
def identifier (t : Token) : Node := Node.plain t.span (.ofName .identifier t.text)

/-- A capitalised name token as a reference identifier. -/
def referenceIdentifier (t : Token) : Node :=
  Node.plain t.span (.ofName .referenceIdentifier t.text)

/-- The name after a dollar sign, or all of a text without one. -/
def withoutSigil : Text → Text
  | '$' :: cs => cs
  | cs => cs

/-- A token as a variable.  The dollar sign may be missing. -/
def variableNode (t : Token) : Node := Node.plain t.span (.ofName .variable (withoutSigil t.text))

/-- A token as a bare word. -/
def bareword (t : Token) : Node := Node.plain t.span (.bareword t.text)

/-- A word in a place where it cannot begin a call. -/
def named (t : Token) (place : BarewordPlace) : Node :=
  match place.reading (t.text.contains ':') false with
  | .naming => t.identifier
  | .word => t.bareword

/-- A regular expression token as a node. -/
def regexNode (t : Token) : Node :=
  Node.plain t.span (.regex (t.text.drop 1).dropLast)

def defaultNode (t : Token) : Node := Node.plain t.span .default

end Token

namespace Fragment

/-- An interpolation as a node.  Its signs are the opener and the closing brace. -/
def interpolationNode (g : Grammar) (f : Fragment) (tokens : List Token) : Except Failure Node := do
  let close := tokens.getLast?.getD default
  let s := f.span
  let opener : Leaf := ⟨⟨s.start, s.start + 2, s.line, s.column⟩, ['$', '\x7b']⟩
  let c := close.span
  let closer : Leaf := ⟨⟨c.start, c.start + 1, c.line, c.column⟩, ['\x7d']⟩
  let expression ← g.interpolated tokens
  return .mk f.span [opener, closer] (.interpolation expression)

def toNode (g : Grammar) (f : Fragment) : Except Failure Node :=
  match f.piece with
  | .content => .ok (Node.plain f.span (.content f.value))
  | .escape value => .ok (Node.plain f.span (.escape f.text value))
  | .variable => .ok (Node.plain f.span (.ofName .variable (f.text.drop 1)))
  | .interpolation tokens => f.interpolationNode g tokens

/-- Some fragments as nodes. -/
def toNodes (g : Grammar) (fs : List Fragment) : Except Failure (List Node) :=
  fs.mapM (toNode g)

end Fragment

namespace Token

def closingQuote (t : Token) : Leaf :=
  let p := t.position.after t.text.dropLast
  ⟨Span.sized p 1, t.text.take 1⟩

/-- A string token as a node.  Its signs are the quotes. -/
def stringNode (g : Grammar) (t : Token) : Except Failure Node := do
  let opener : Leaf := ⟨Span.sized t.position 1, t.text.take 1⟩
  let quote := if t.text.head? = some (.char '\x27') then QuoteStyle.single else .double
  let fragments ← Fragment.toNodes g t.fragments
  return .mk t.span [opener, t.closingQuote] (.string quote fragments)

/-- A heredoc token as a node.  The sign of the body is the marker on the closing line. -/
def heredocNode (g : Grammar) (t : Token) (tag : HeredocTag) (body : HeredocBody) :
    Except Failure Node := do
  let tagNode := Node.plain t.span
    (.heredocTag tag.terminator tag.quoting tag.label tag.escapes)
  let fragments ← Fragment.toNodes g body.fragments
  let bodyNode := Node.mk body.span [body.marker.leaf] (.heredocBody body.trim fragments)
  return Node.plain t.span (.heredoc tagNode bodyNode)

def integerNode (t : Token) : Except Failure Node :=
  match Literal.integer? t.text with
  | some n => .ok (Node.plain t.span (.integer n))
  | none => .error (.octalDigit t.text)

/-- The node that a token makes alone, if its kind is such. -/
def literal? (g : Grammar) (t : Token) : Option (Except Failure Node) :=
  match t.kind, t.detail with
  | .variable, _ => some (.ok t.variableNode)
  | .integer, _ => some t.integerNode
  | .float, _ => some (.ok (Node.plain t.span (.float (Literal.float t.text))))
  | .string, _ => some (t.stringNode g)
  | .heredoc, .heredoc tag (some body) => some (t.heredocNode g tag body)
  | .regex, _ => some (.ok t.regexNode)
  | .keyword .true, _ => some (.ok (Node.plain t.span (.boolean true)))
  | .keyword .false, _ => some (.ok (Node.plain t.span (.boolean false)))
  | .keyword .undef, _ => some (.ok (Node.plain t.span .undef))
  | .keyword .default, _ => some (.ok t.defaultNode)
  | _, _ => none

end Token

end ManifestTree
