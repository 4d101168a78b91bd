import ManifestTree.Number.Binary64
import ManifestTree.Token

/-!
# Syntax trees

Every element of a tree has a span.  A node also keeps the keywords and punctuation it consumed as
leaves, so the leaves of a tree account for all of its source but white space and comments.  What
a node is and what it holds is its `Shape`, which says for each kind which parts there are: the
shape of a node holds nodes again.
-/

namespace ManifestTree

/-! ## Choices -/

/-- The scoped names: lowercase, capitalised, and with a dollar sign. -/
inductive NameForm where
  | identifier | referenceIdentifier | variable
deriving DecidableEq, Repr

/-- The quotes of a string. -/
inductive QuoteStyle where
  | single | double
deriving DecidableEq, Repr

/-- The operators that join statement expressions. -/
inductive CommandOperator where
  | and | or
deriving DecidableEq, Repr

/-- The operators that stand before their operand. -/
inductive UnaryOperator where
  | not | negate | splat
deriving DecidableEq, Repr

/-- How an attribute takes its value. -/
inductive AttributeOperator where
  | set | add
deriving DecidableEq, Repr

/-- The statements that compose classes. -/
inductive CompositionVerb where
  | include | require | contain
deriving DecidableEq, Repr

inductive DeclarationKeyword where
  | «class» | define | plan
deriving DecidableEq, Repr

inductive ResourceForm where
  | ordinary | virtual | exported
deriving DecidableEq, Repr

inductive ChainArrow where
  | order | notify
deriving DecidableEq, Repr

/-! ## Elements -/

/-- A keyword or punctuation sign that a node consumed. -/
structure Leaf where
  /-- Where it stands. -/
  span : Span
  /-- How it is written. -/
  text : Text
deriving DecidableEq, Repr

/-- What an element of a tree is, with the parts that elements of its kind have. -/
inductive Shape (α : Type) where
  /-- A keyword or punctuation sign. -/
  | token (text : Text)
  /-- A comment. -/
  | comment (text : Text)
  | integer (value : Int)
  | float (value : Binary64)
  | boolean (value : Bool)
  | undef
  /-- The keyword `default` as a value, an option or a key. -/
  | default
  /-- A bare word that stands for itself. -/
  | bareword (value : Text)
  | regex (pattern : Text)
  /-- Plain text in a string or heredoc. -/
  | content (value : Text)
  | escape (text value : Text)
  /-- A name of one or more segments, with a double colon in front if it is absolute. -/
  | scopedName (form : NameForm) (segments : List Text) (absolute : Bool)
  | string (quote : QuoteStyle) (fragments : List α)
  | interpolation (expression : α)
  /-- A heredoc.  Its span is that of the tag; the body stands on later lines. -/
  | heredoc (tag body : α)
  | heredocTag (terminator : Text) (quoting : Quoting) (label escapes : Option Text)
  /-- The lines of a heredoc; its leaf is the marker on the closing line. -/
  | heredocBody (trim : Trim) (fragments : List α)
  | array (elements : List α)
  | hash (entries : List α)
  | hashEntry (key value : α)
  | binary (operator : Text) (left right : α)
  | commandBinary (operator : CommandOperator) (left right : α)
  | unary (operator : UnaryOperator) (operand : α)
  | assignment (target value : α)
  | parenthesized (expression : α)
  | selector (subject : α) (items : List α)
  | selectorItem (key value : α)
  | type (name : α) (arguments : Option (List α))
  | parameter (type : Option α) (capturesRest : Bool) (name : α) (value : Option α)
  | parameterList (parameters : List α)
  | lambda (parameters : Option α) (body : α)
  | functionCall (name : α) (arguments : List α) (block : Option α)
  | methodCall (receiver name : α) (arguments : Option (List α)) (block : Option α)
  | indexAccess (target : α) (indices : List α)
  | reference (type : α) (indices : List α)
  | «attribute» (name : α) (operator : AttributeOperator) (value : α)
  | collector (exported : Bool) (type : α) (query : Option α) (attributes : Option (List α))
  | body (statements : List α)
  | elsif (condition body : α)
  | «else» (body : α)
  | «if» (condition body : α) (elsifs : List α) (elseBranch : Option α)
  | «unless» (condition body : α) (elseBranch : Option α)
  | caseItem (options : List α) (body : α)
  | caseDefault (body : α)
  | «case» (subject : α) (arms : List α)
  | identifierArray (identifiers : List α)
  | stringArray (strings : List α)
  | composition (verb : CompositionVerb) (targets : List α)
  | inheritance (name : α)
  | declaration (keyword : DeclarationKeyword) (name : α) (parameters inheritance : Option α)
    (body : α)
  | typeDeclaration (name type : α)
  | functionDeclaration (name : α) (parameters returnType : Option α) (body : α)
  | nodeDefinition (hosts : List α) (body : α)
  | resourceBody (title : α) (attributes : List α)
  | resourceCall (form : ResourceForm) (type : α) (bodies : List α)
  | resourceDefaults (type : α) (attributes : List α)
  | relation (arrow : ChainArrow) (left right : α)
  | manifest (statements comments : List α)
deriving DecidableEq, Repr

/-- An element of a tree: its span, the signs it consumed, and its shape. -/
inductive Node where
  | mk (span : Span) (tokens : List Leaf) (shape : Shape Node)

namespace Node

/-- Where the element stands. -/
def span : Node → Span
  | .mk s _ _ => s

/-- The signs the element consumed. -/
def tokens : Node → List Leaf
  | .mk _ ts _ => ts

/-- What the element is. -/
def shape : Node → Shape Node
  | .mk _ _ s => s

/-- An element without signs of its own. -/
def plain (span : Span) (shape : Shape Node) : Node := .mk span [] shape

instance : Inhabited Node := ⟨plain default .undef⟩

end Node

/-- A sign as an element of its own. -/
def Leaf.toNode (l : Leaf) : Node := Node.plain l.span (.token l.text)

/-- The sign that a token is. -/
def Token.leaf (t : Token) : Leaf := ⟨t.span, t.text⟩

/-! ## Folding -/

mutual

/-- Computes a value for a node from the node and the values of the nodes in its shape. -/
def Node.fold {β : Type} (f : Node → Shape β → β) : Node → β
  | .mk span tokens shape => f (.mk span tokens shape) (Shape.foldNodes f shape)

/-- The values of the nodes in a shape, each in the place of its node. -/
def Shape.foldNodes {β : Type} (f : Node → Shape β → β) : Shape Node → Shape β
  | .token t => .token t
  | .comment t => .comment t
  | .integer v => .integer v
  | .float v => .float v
  | .boolean v => .boolean v
  | .undef => .undef
  | .default => .default
  | .bareword v => .bareword v
  | .regex p => .regex p
  | .content v => .content v
  | .escape t v => .escape t v
  | .scopedName k s a => .scopedName k s a
  | .string q fs => .string q (Node.foldList f fs)
  | .interpolation e => .interpolation (e.fold f)
  | .heredoc t b => .heredoc (t.fold f) (b.fold f)
  | .heredocTag t q l e => .heredocTag t q l e
  | .heredocBody t fs => .heredocBody t (Node.foldList f fs)
  | .array es => .array (Node.foldList f es)
  | .hash es => .hash (Node.foldList f es)
  | .hashEntry k v => .hashEntry (k.fold f) (v.fold f)
  | .binary o l r => .binary o (l.fold f) (r.fold f)
  | .commandBinary o l r => .commandBinary o (l.fold f) (r.fold f)
  | .unary o e => .unary o (e.fold f)
  | .assignment t v => .assignment (t.fold f) (v.fold f)
  | .parenthesized e => .parenthesized (e.fold f)
  | .selector s is => .selector (s.fold f) (Node.foldList f is)
  | .selectorItem k v => .selectorItem (k.fold f) (v.fold f)
  | .type n as => .type (n.fold f) (Node.foldOptionalList f as)
  | .parameter t c x v =>
    .parameter (Node.foldOption f t) c (x.fold f) (Node.foldOption f v)
  | .parameterList ps => .parameterList (Node.foldList f ps)
  | .lambda ps b => .lambda (Node.foldOption f ps) (b.fold f)
  | .functionCall n as b => .functionCall (n.fold f) (Node.foldList f as) (Node.foldOption f b)
  | .methodCall r n as b =>
    .methodCall (r.fold f) (n.fold f) (Node.foldOptionalList f as) (Node.foldOption f b)
  | .indexAccess t is => .indexAccess (t.fold f) (Node.foldList f is)
  | .reference t is => .reference (t.fold f) (Node.foldList f is)
  | .attribute n o v => .attribute (n.fold f) o (v.fold f)
  | .collector e t q as =>
    .collector e (t.fold f) (Node.foldOption f q) (Node.foldOptionalList f as)
  | .body ss => .body (Node.foldList f ss)
  | .elsif c b => .elsif (c.fold f) (b.fold f)
  | .else b => .else (b.fold f)
  | .if c b es e => .if (c.fold f) (b.fold f) (Node.foldList f es) (Node.foldOption f e)
  | .unless c b e => .unless (c.fold f) (b.fold f) (Node.foldOption f e)
  | .caseItem os b => .caseItem (Node.foldList f os) (b.fold f)
  | .caseDefault b => .caseDefault (b.fold f)
  | .case s as => .case (s.fold f) (Node.foldList f as)
  | .identifierArray is => .identifierArray (Node.foldList f is)
  | .stringArray ss => .stringArray (Node.foldList f ss)
  | .composition v ts => .composition v (Node.foldList f ts)
  | .inheritance n => .inheritance (n.fold f)
  | .declaration k n ps i b =>
    .declaration k (n.fold f) (Node.foldOption f ps) (Node.foldOption f i) (b.fold f)
  | .typeDeclaration n t => .typeDeclaration (n.fold f) (t.fold f)
  | .functionDeclaration n ps t b =>
    .functionDeclaration (n.fold f) (Node.foldOption f ps) (Node.foldOption f t) (b.fold f)
  | .nodeDefinition hs b => .nodeDefinition (Node.foldList f hs) (b.fold f)
  | .resourceBody t as => .resourceBody (t.fold f) (Node.foldList f as)
  | .resourceCall k t bs => .resourceCall k (t.fold f) (Node.foldList f bs)
  | .resourceDefaults t as => .resourceDefaults (t.fold f) (Node.foldList f as)
  | .relation a l r => .relation a (l.fold f) (r.fold f)
  | .manifest ss cs => .manifest (Node.foldList f ss) (Node.foldList f cs)

/-- The values of some nodes. -/
def Node.foldList {β : Type} (f : Node → Shape β → β) : List Node → List β
  | [] => []
  | n :: ns => n.fold f :: Node.foldList f ns

/-- The value of a node that may be missing. -/
def Node.foldOption {β : Type} (f : Node → Shape β → β) : Option Node → Option β
  | none => none
  | some n => some (n.fold f)

/-- The values of some nodes that may be missing. -/
def Node.foldOptionalList {β : Type} (f : Node → Shape β → β) :
    Option (List Node) → Option (List β)
  | none => none
  | some ns => some (Node.foldList f ns)

end

end ManifestTree
