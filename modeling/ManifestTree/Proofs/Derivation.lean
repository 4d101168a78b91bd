import ManifestTree.Parse.Statement
import ManifestTree.Proofs.Depth
import ManifestTree.Proofs.Rank
import Mathlib.Algebra.GroupWithZero.Nat

/-!
# The grammar of manifests

`Parse.Derives c ts n` says that the tokens `ts`, all of them and in this order, make the node `n`
as a construct of the category `c`.  There is one rule for each form that the grammar knows; the
rules for operators say which ranks the operands may have.  That the parser only builds nodes
that its tokens derive is proved once, and what holds of every tree is then an induction over
derivations.
-/

namespace ManifestTree.Parse

/-! ## Lists of constructs -/

/-- Some tokens and the node they make. -/
abbrev Segment := List Token × Node

/-- Runs of tokens one after the other, with separators between them and perhaps one at the end. -/
def weave : List (List Token) → List Token → List Token
  | [], seps => seps
  | x :: xs, [] => x ++ weave xs []
  | x :: xs, c :: cs => x ++ c :: weave xs cs

/-- Constructs in a row and the tokens that separate them. -/
structure Series where
  /-- The constructs. -/
  items : List Segment
  /-- The separators. -/
  seps : List Token

namespace Series

/-- All tokens of a series. -/
def tokens (l : Series) : List Token := weave (l.items.map Prod.fst) l.seps

def nodes (l : Series) : List Node := l.items.map Prod.snd

/-- The separators as signs. -/
def leaves (l : Series) : List Leaf := l.seps.map Token.leaf

/-- What ends a series that follows the span `s`: its last item, or the separator after that. -/
def stopAfter (l : Series) (s : Span) : Span :=
  let lastItem := (l.items.getLast?.map fun i => i.2.span).getD s
  match l.seps.getLast? with
  | some sep => if lastItem.stop < sep.span.stop then sep.span else lastItem
  | none => lastItem

/-- The separators are one symbol, one between any two items, and at most one follows the last. -/
structure SeparatedBy (l : Series) (sep : Symbol) : Prop where
  kinds : ∀ t ∈ l.seps, t.kind = .symbol sep
  enough : l.items.length ≤ l.seps.length + 1
  few : l.seps.length ≤ l.items.length

/-- No separator follows the last item, of which there is one. -/
def Tight (l : Series) : Prop := l.items.length = l.seps.length + 1

end Series

/-- A series between brackets. -/
structure Group where
  /-- The opening bracket. -/
  opener : Token
  /-- What stands between. -/
  inner : Series
  /-- The closing bracket. -/
  closer : Token

namespace Group

/-- All tokens of a group. -/
def tokens (g : Group) : List Token := g.opener :: g.inner.tokens ++ [g.closer]

def nodes (g : Group) : List Node := g.inner.nodes

/-- The brackets and separators as signs. -/
def leaves (g : Group) : List Leaf := g.opener.leaf :: g.inner.leaves ++ [g.closer.leaf]

/-- The brackets are two symbols. -/
structure Between (g : Group) (opens closes : Symbol) : Prop where
  opener : g.opener.kind = .symbol opens
  closer : g.closer.kind = .symbol closes

end Group

/-- The tokens of a construct that may be missing. -/
def tokensOf (o : Option Segment) : List Token := (o.map Prod.fst).getD []

def groupTokens (o : Option Group) : List Token := (o.map Group.tokens).getD []

/-- The signs of a group that may be missing. -/
def groupLeaves (o : Option Group) : List Leaf := (o.map Group.leaves).getD []

end ManifestTree.Parse

namespace ManifestTree

/-! ## Keywords and arrows -/

def CompositionVerb.keyword : CompositionVerb → Keyword
  | .include => .include
  | .require => .require
  | .contain => .contain

def DeclarationKeyword.keyword : DeclarationKeyword → Keyword
  | .class => .class
  | .define => .define
  | .plan => .plan

def AttributeOperator.arrow : AttributeOperator → Symbol
  | .set => .fatArrow
  | .add => .plusArrow

/-! ## Nodes of single tokens -/

@[simp] theorem Node.plain_span (s : Span) (shape : Shape Node) :
    (Node.plain s shape).span = s := rfl

@[simp] theorem Token.variableNode_span (t : Token) : t.variableNode.span = t.span := rfl

@[simp] theorem Token.identifier_span (t : Token) : t.identifier.span = t.span := rfl

@[simp] theorem Token.referenceIdentifier_span (t : Token) :
    t.referenceIdentifier.span = t.span := rfl

@[simp] theorem Token.bareword_span (t : Token) : t.bareword.span = t.span := rfl

/-- A scoped name is one, whatever its text. -/
theorem Shape.ofName_eq {α : Type} (form : NameForm) (cs : Text) :
    ∃ segments absolute, (Shape.ofName form cs : Shape α) = .scopedName form segments absolute := by
  unfold Shape.ofName
  split
  · exact ⟨_, _, rfl⟩
  · exact ⟨_, _, rfl⟩

/-- The kind of a scoped name depends on its form alone. -/
theorem Node.kind_ofName (s : Span) (form : NameForm) (cs : Text) :
    (Node.plain s (.ofName form cs)).kind = .scopedName form := by
  obtain ⟨segments, absolute, h⟩ := @Shape.ofName_eq Node form cs
  rw [h]
  rfl

theorem Node.rank_ofName (s : Span) (form : NameForm) (cs : Text) :
    (Node.plain s (.ofName form cs)).rank = 0 := by
  obtain ⟨segments, absolute, h⟩ := @Shape.ofName_eq Node form cs
  rw [h]
  rfl

/-- A fragment as a node, where `inner` is what an interpolation holds. -/
def Fragment.nodeOf (f : Fragment) (inner : Node) : Node :=
  match f.piece with
  | .content => Node.plain f.span (.content f.value)
  | .escape value => Node.plain f.span (.escape f.text value)
  | .variable => Node.plain f.span (.ofName .variable (f.text.drop 1))
  | .interpolation tokens =>
    let s := f.span
    let c := (tokens.getLast?.getD default).span
    .mk s [⟨⟨s.start, s.start + 2, s.line, s.column⟩, ['$', '\x7b']⟩,
      ⟨⟨c.start, c.start + 1, c.line, c.column⟩, ['\x7d']⟩] (.interpolation inner)

/-- A string token as a node with the given parts. -/
def Token.stringOf (t : Token) (parts : List Node) : Node :=
  .mk t.span [⟨Span.sized t.position 1, t.text.take 1⟩, t.closingQuote]
    (.string (if t.text.head? = some (.char '\x27') then .single else .double) parts)

def Token.tagOf (t : Token) (tag : HeredocTag) : Node :=
  Node.plain t.span (.heredocTag tag.terminator tag.quoting tag.label tag.escapes)

/-- A heredoc token as a node, its body with the given parts. -/
def Token.heredocOf (t : Token) (tag : HeredocTag) (body : HeredocBody) (parts : List Node) :
    Node :=
  Node.plain t.span
    (.heredoc (t.tagOf tag) (.mk body.span [body.marker.leaf] (.heredocBody body.trim parts)))

namespace Node

/-- How many defaults there are among the key of a choice or the options of a case arm. -/
def defaultCount (n : Node) : Nat :=
  match n.shape with
  | .selectorItem key _ => if key.kind = .default then 1 else 0
  | .caseItem options _ => options.countP fun o => o.kind = .default
  | .caseDefault _ => 1
  | _ => 0

end Node

end ManifestTree

namespace ManifestTree.Parse

/-! ## Categories and rules -/

/-- The categories of constructs. -/
inductive Category where
  | string | operand | unary
  /-- An expression; with the flag set it has no `and` or `or` outside brackets. -/
  | expression (command : Bool)
  | statementExpression | type | typeArgument | parameter
  /-- Parameters between two symbols. -/
  | parameters (opens closes : Symbol)
  | body | lambda | attributeName | «attribute» | selectorItem | hashKey | hashEntry
  | elsif | otherwise | caseArm | target | nodeMatch | resourceBody | statement

/-- The tokens make the node, as a construct of the category. -/
inductive Derives : Category → List Token → Node → Prop
  /- Single tokens. -/
  | variable (t : Token) : t.kind = .variable → Derives .operand [t] t.variableNode
  | integer (t : Token) (n : Nat) : t.kind = .integer → Literal.integer? t.text = some n →
      Derives .operand [t] (Node.plain t.span (.integer n))
  | float (t : Token) : t.kind = .float →
      Derives .operand [t] (Node.plain t.span (.float (Literal.float t.text)))
  | regex (t : Token) : t.kind = .regex → Derives .operand [t] t.regexNode
  | boolean (t : Token) (b : Bool) : t.kind = .keyword (if b then .true else .false) →
      Derives .operand [t] (Node.plain t.span (.boolean b))
  | undef (t : Token) : t.kind = .keyword .undef →
      Derives .operand [t] (Node.plain t.span .undef)
  | default (t : Token) : t.kind = .keyword .default → Derives .operand [t] t.defaultNode
  | string (t : Token) (inner : Fragment → Node) : t.kind = .string →
      (∀ f ∈ t.fragments, f.Proper) →
      (∀ f ∈ t.fragments, ∀ ts, f.piece = .interpolation ts →
        Derives (.expression false) ts.dropLast (inner f)) →
      Derives .string [t] (t.stringOf (t.fragments.map fun f => f.nodeOf (inner f)))
  | heredoc (t : Token) (tag : HeredocTag) (b : HeredocBody) (inner : Fragment → Node) :
      t.kind = .heredoc → t.detail = .heredoc tag (some b) → (∀ f ∈ b.fragments, f.Proper) →
      (∀ f ∈ b.fragments, ∀ ts, f.piece = .interpolation ts →
        Derives (.expression false) ts.dropLast (inner f)) →
      Derives .operand [t] (t.heredocOf tag b (b.fragments.map fun f => f.nodeOf (inner f)))
  | quoted {ts : List Token} {n : Node} : Derives .string ts n → Derives .operand ts n
  | word (t : Token) : t.kind = .name → Derives .operand [t] t.bareword
  | name (t : Token) : t.kind = .name → Derives .operand [t] t.identifier
  | referenceName (t : Token) : t.kind = .reference →
      Derives .operand [t] t.referenceIdentifier
  /-- In front of an interpolation a name or keyword is a variable. -/
  | bareVariable (t : Token) : t.kind = .name ∨ t.kind.isPlainKeyword →
      Derives .operand [t] t.variableNode
  /- Operands between brackets and what follows an operand. -/
  | array (g : Group) : g.Between .leftBracket .rightBracket → g.inner.SeparatedBy .comma →
      (∀ i ∈ g.inner.items, Derives (.expression false) i.1 i.2) →
      (∀ i ∈ g.inner.items, i.2.rank ≤ Operator.valueRank) →
      Derives .operand g.tokens
        (.mk (g.opener.span.join g.closer.span) g.leaves (.array g.nodes))
  | hash (g : Group) : g.Between .leftBrace .rightBrace → g.inner.SeparatedBy .comma →
      (∀ i ∈ g.inner.items, Derives .hashEntry i.1 i.2) →
      Derives .operand g.tokens
        (.mk (g.opener.span.join g.closer.span) g.leaves (.hash g.nodes))
  | parenthesized (opener closer : Token) {ts : List Token} {n : Node} :
      opener.kind = .symbol .leftParen → closer.kind = .symbol .rightParen →
      Derives (.expression false) ts n →
      Derives .operand (opener :: ts ++ [closer])
        (.mk (opener.span.join closer.span) [opener.leaf, closer.leaf] (.parenthesized n))
  | functionCall (t : Token) (arguments : Group) (block : Option Segment) : t.kind = .name →
      arguments.Between .leftParen .rightParen → arguments.inner.SeparatedBy .comma →
      (∀ i ∈ arguments.inner.items, Derives (.expression false) i.1 i.2) →
      (∀ b ∈ block, Derives .lambda b.1 b.2) →
      Derives .operand (t :: arguments.tokens ++ tokensOf block)
        (.mk (t.span.join ((block.map fun b => b.2.span).getD arguments.closer.span))
          arguments.leaves (.functionCall t.identifier arguments.nodes (block.map Prod.snd)))
  | reference (t : Token) (indices : Group) : t.kind = .reference →
      indices.Between .leftBracket .rightBracket → indices.inner.SeparatedBy .comma →
      indices.inner.Tight →
      (∀ i ∈ indices.inner.items, Derives (.expression false) i.1 i.2) →
      Derives .operand (t :: indices.tokens)
        (.mk (t.span.join indices.closer.span) indices.leaves
          (.reference t.referenceIdentifier indices.nodes))
  | collector (t opener closer : Token) (exported : Bool) (query : Option Segment)
      (attributes : Option Group) : t.kind = .reference →
      opener.kind = .symbol (if exported then .leftExport else .leftCollect) →
      closer.kind = .symbol (if exported then .rightExport else .rightCollect) →
      (∀ q ∈ query, Derives (.expression false) q.1 q.2) →
      (∀ g ∈ attributes, g.Between .leftBrace .rightBrace) →
      (∀ g ∈ attributes, g.inner.SeparatedBy .comma) →
      (∀ g ∈ attributes, ∀ i ∈ g.inner.items, Derives .attribute i.1 i.2) →
      Derives .operand (t :: opener :: tokensOf query ++ closer :: groupTokens attributes)
        (.mk (t.span.join ((attributes.map fun g => g.closer.span).getD closer.span))
          ([opener.leaf, closer.leaf] ++ groupLeaves attributes)
          (.collector exported t.referenceIdentifier (query.map Prod.snd)
            (attributes.map Group.nodes)))
  | indexAccess {ts : List Token} {target : Node} (indices : Group) :
      Derives .operand ts target →
      indices.Between .leftBracket .rightBracket → indices.inner.SeparatedBy .comma →
      indices.inner.Tight →
      (∀ i ∈ indices.inner.items, Derives (.expression false) i.1 i.2) →
      Derives .operand (ts ++ indices.tokens)
        (.mk (target.span.join indices.closer.span) indices.leaves
          (.indexAccess target indices.nodes))
  | methodCall {ts : List Token} {receiver : Node} (dot t : Token) (arguments : Option Group)
      (block : Option Segment) : Derives .operand ts receiver → dot.kind = .symbol .dot →
      t.kind = .name ∨ t.kind.isKeyword →
      (∀ g ∈ arguments, g.Between .leftParen .rightParen) →
      (∀ g ∈ arguments, g.inner.SeparatedBy .comma) →
      (∀ g ∈ arguments, ∀ i ∈ g.inner.items, Derives (.expression false) i.1 i.2) →
      (∀ b ∈ block, Derives .lambda b.1 b.2) →
      Derives .operand (ts ++ dot :: t :: groupTokens arguments ++ tokensOf block)
        (.mk (receiver.span.join ((block.map fun b => b.2.span).getD
            ((arguments.map fun g => g.closer.span).getD t.span)))
          (dot.leaf :: groupLeaves arguments)
          (.methodCall receiver t.identifier (arguments.map Group.nodes) (block.map Prod.snd)))
  | selector {ts : List Token} {subject : Node} (question : Token) (g : Group) :
      Derives .operand ts subject → question.kind = .symbol .question →
      g.Between .leftBrace .rightBrace → g.inner.SeparatedBy .comma →
      (∀ i ∈ g.inner.items, Derives .selectorItem i.1 i.2) →
      (g.nodes.map Node.defaultCount).sum ≤ 1 →
      Derives .operand (ts ++ question :: g.tokens)
        (.mk (subject.span.join g.closer.span) (question.leaf :: g.leaves)
          (.selector subject g.nodes))
  /- Operators. -/
  | bareOperand {ts : List Token} {n : Node} : Derives .operand ts n → Derives .unary ts n
  | prefixed (t : Token) (o : Operator) {ts : List Token} {n : Node} :
      Operator.unary? t.kind = some o → Derives .unary ts n →
      Derives .unary (t :: ts) (.mk (t.span.join n.span) [t.leaf] (.unary (unaryOperator o) n))
  | single {ts : List Token} {n : Node} (command : Bool) : Derives .unary ts n →
      Derives (.expression command) ts n
  | binary (command : Bool) (t : Token) (o : Operator) {ls rs : List Token} {l r : Node} :
      Operator.binary? t.kind = some o → t.kind ≠ .symbol .equals →
      (command → Operator.command? t.kind = none) →
      Derives (.expression command) ls l → Derives (.expression command) rs r →
      o.admitsLeft l.rank → o.admitsRight r.rank →
      Derives (.expression command) (ls ++ t :: rs)
        (.mk (l.span.join r.span) [t.leaf] (.binary (Text.ofString o.symbol) l r))
  | assignment (command : Bool) (t : Token) {ls rs : List Token} {l r : Node} :
      t.kind = .symbol .equals → isAssignable l.kind →
      Derives (.expression command) ls l → Derives (.expression command) rs r →
      Derives (.expression command) (ls ++ t :: rs)
        (.mk (l.span.join r.span) [t.leaf] (.assignment l r))
  | plainCommand {ts : List Token} {n : Node} : Derives (.expression true) ts n →
      Derives .statementExpression ts n
  | commandBinary (t : Token) (o : Operator) {ls rs : List Token} {l r : Node} :
      Operator.command? t.kind = some o →
      Derives .statementExpression ls l → Derives .statementExpression rs r →
      l.commandRank ≤ o.rank → r.commandRank < o.rank →
      Derives .statementExpression (ls ++ t :: rs)
        (.mk (l.span.join r.span) [t.leaf] (.commandBinary (commandOperator o) l r))
  /- Types and parameters. -/
  | typeName (t : Token) : t.kind = .reference →
      Derives .type [t] (Node.plain t.span (.type t.referenceIdentifier none))
  | appliedType (t : Token) (g : Group) : t.kind = .reference →
      g.Between .leftBracket .rightBracket → g.inner.SeparatedBy .comma →
      (∀ i ∈ g.inner.items, Derives .typeArgument i.1 i.2) →
      Derives .type (t :: g.tokens)
        (.mk (t.span.join g.closer.span) g.leaves (.type t.referenceIdentifier (some g.nodes)))
  | nestedType {ts : List Token} {n : Node} : Derives .type ts n → Derives .typeArgument ts n
  | literalArgument {ts : List Token} {n : Node} : Derives .unary ts n → n.kind ≠ .type →
      isTypeArgument n.kind → Derives .typeArgument ts n
  | parameter (first t : Token) (type : Option Segment) (star : Option Token)
      (value : Option (Token × Segment)) :
      (∀ x ∈ type, Derives .type x.1 x.2) → (∀ x ∈ star, x.kind = .symbol .times) →
      t.kind = .variable → (∀ x ∈ value, x.1.kind = .symbol .equals) →
      (∀ x ∈ value, Derives (.expression false) x.2.1 x.2.2) →
      (∀ x ∈ value, x.2.2.rank ≤ Operator.valueRank) →
      (tokensOf type ++ star.toList ++ [t]).head? = some first →
      Derives .parameter
        (tokensOf type ++ star.toList ++ t :: ((value.map fun x => x.1 :: x.2.1).getD []))
        (.mk (first.span.join ((value.map fun x => x.2.2.span).getD t.span))
          ((star.toList ++ (value.map Prod.fst).toList).map Token.leaf)
          (.parameter (type.map Prod.snd) star.isSome t.variableNode
            (value.map fun x => x.2.2)))
  | parameters (g : Group) (opens closes : Symbol) : g.Between opens closes →
      g.inner.SeparatedBy .comma →
      (∀ i ∈ g.inner.items, Derives .parameter i.1 i.2) →
      Derives (.parameters opens closes) g.tokens
        (.mk (g.opener.span.join g.closer.span) g.leaves (.parameterList g.nodes))
  /- Bodies and blocks. -/
  | body (g : Group) : g.Between .leftBrace .rightBrace → g.inner.seps = [] →
      (∀ i ∈ g.inner.items, Derives .statement i.1 i.2) →
      Derives .body g.tokens (.mk (g.opener.span.join g.closer.span) g.leaves (.body g.nodes))
  | lambda (parameters : Option Segment) {ts : List Token} {block : Node} :
      (∀ p ∈ parameters, Derives (.parameters .pipe .pipe) p.1 p.2) → Derives .body ts block →
      Derives .lambda (tokensOf parameters ++ ts)
        (Node.plain (((parameters.map fun p => p.2.span).getD block.span).join block.span)
          (.lambda (parameters.map Prod.snd) block))
  /- Attributes, choices and entries. -/
  | wordAttribute (t : Token) : t.kind = .name ∨ t.kind.isKeyword →
      Derives .attributeName [t] t.bareword
  | stringAttribute {ts : List Token} {n : Node} : Derives .string ts n →
      Derives .attributeName ts n
  | starAttribute (t : Token) : t.kind = .symbol .times →
      Derives .attributeName [t] t.leaf.toNode
  | attributeItem (arrow : Token) {ns vs : List Token} {name value : Node} (o : AttributeOperator) :
      Derives .attributeName ns name →
      arrow.kind = .symbol o.arrow →
      Derives (.expression false) vs value → value.rank ≤ Operator.valueRank →
      Derives .attribute (ns ++ arrow :: vs)
        (.mk (name.span.join value.span) [arrow.leaf] (.attribute name o value))
  | selectorItem (arrow : Token) {ks vs : List Token} {key value : Node} :
      Derives (.expression false) ks key → key.rank ≤ Operator.valueRank →
      arrow.kind = .symbol .fatArrow →
      Derives (.expression false) vs value → value.rank ≤ Operator.valueRank →
      Derives .selectorItem (ks ++ arrow :: vs)
        (.mk (key.span.join value.span) [arrow.leaf] (.selectorItem key value))
  | keywordKey (t : Token) : t.kind.isPlainKeyword → Derives .hashKey [t] t.bareword
  | valueKey {ts : List Token} {n : Node} : Derives (.expression false) ts n →
      n.rank ≤ Operator.valueRank → Derives .hashKey ts n
  | hashEntry (arrow : Token) {ks vs : List Token} {key value : Node} :
      Derives .hashKey ks key → arrow.kind = .symbol .fatArrow →
      Derives (.expression false) vs value → value.rank ≤ Operator.valueRank →
      Derives .hashEntry (ks ++ arrow :: vs)
        (.mk (key.span.join value.span) [arrow.leaf] (.hashEntry key value))
  /- Conditionals. -/
  | elsif (keyword : Token) {cs bs : List Token} {test block : Node} :
      keyword.kind = .keyword .elsif → Derives .statementExpression cs test →
      Derives .body bs block →
      Derives .elsif (keyword :: cs ++ bs)
        (.mk (keyword.span.join block.span) [keyword.leaf] (.elsif test block))
  | otherwise (keyword : Token) {bs : List Token} {block : Node} :
      keyword.kind = .keyword .else → Derives .body bs block →
      Derives .otherwise (keyword :: bs)
        (.mk (keyword.span.join block.span) [keyword.leaf] (.else block))
  | ifStatement (keyword : Token) {cs bs : List Token} {test block : Node}
      (elsifs : List Segment) (other : Option Segment) :
      keyword.kind = .keyword .if → Derives .statementExpression cs test →
      Derives .body bs block → (∀ e ∈ elsifs, Derives .elsif e.1 e.2) →
      (∀ e ∈ other, Derives .otherwise e.1 e.2) →
      Derives .statement (keyword :: cs ++ bs ++ elsifs.flatMap Prod.fst ++ tokensOf other)
        (.mk (keyword.span.join ((other.map fun e => e.2.span).getD
            ((elsifs.getLast?.map fun e => e.2.span).getD block.span)))
          [keyword.leaf] (.if test block (elsifs.map Prod.snd) (other.map Prod.snd)))
  | unlessStatement (keyword : Token) {cs bs : List Token} {test block : Node}
      (other : Option Segment) :
      keyword.kind = .keyword .unless → Derives .statementExpression cs test →
      Derives .body bs block → (∀ e ∈ other, Derives .otherwise e.1 e.2) →
      Derives .statement (keyword :: cs ++ bs ++ tokensOf other)
        (.mk (keyword.span.join ((other.map fun e => e.2.span).getD block.span))
          [keyword.leaf] (.unless test block (other.map Prod.snd)))
  | caseItem (first colon : Token) (options : Series) {bs : List Token} {block : Node} :
      options.SeparatedBy .comma → options.Tight →
      (∀ i ∈ options.items, Derives (.expression false) i.1 i.2) →
      (∀ i ∈ options.items, i.2.rank ≤ Operator.valueRank) →
      options.tokens.head? = some first → colon.kind = .symbol .colon →
      Derives .body bs block →
      Derives .caseArm (options.tokens ++ colon :: bs)
        (.mk (first.span.join block.span) (options.leaves ++ [colon.leaf])
          (.caseItem options.nodes block))
  | caseDefault (keyword colon : Token) {bs : List Token} {block : Node} :
      keyword.kind = .keyword .default → colon.kind = .symbol .colon → Derives .body bs block →
      Derives .caseArm (keyword :: colon :: bs)
        (.mk (keyword.span.join block.span) [keyword.leaf, colon.leaf] (.caseDefault block))
  | caseStatement (keyword : Token) {ss : List Token} {subject : Node} (g : Group) :
      keyword.kind = .keyword .case → Derives (.expression false) ss subject →
      g.Between .leftBrace .rightBrace → g.inner.seps = [] →
      (∀ i ∈ g.inner.items, Derives .caseArm i.1 i.2) →
      (g.nodes.map Node.defaultCount).sum ≤ 1 →
      Derives .statement (keyword :: ss ++ g.tokens)
        (.mk (keyword.span.join g.closer.span) (keyword.leaf :: g.leaves)
          (.case subject g.nodes))
  /- Composition and declarations. -/
  | namedTarget (t : Token) : t.kind = .name → Derives .target [t] t.identifier
  | variableTarget (t : Token) : t.kind = .variable → Derives .target [t] t.variableNode
  | stringTarget {ts : List Token} {n : Node} : Derives .string ts n → Derives .target ts n
  | referenceTarget {ts : List Token} {n : Node} : Derives .operand ts n →
      n.kind = .reference → Derives .target ts n
  | nameArray (g : Group) : g.Between .leftBracket .rightBracket → g.inner.SeparatedBy .comma →
      (∀ i ∈ g.inner.items, ∃ t : Token, t.kind = .name ∧ i = ([t], t.identifier)) →
      Derives .target g.tokens
        (.mk (g.opener.span.join g.closer.span) g.leaves (.identifierArray g.nodes))
  | stringArray (g : Group) : g.Between .leftBracket .rightBracket →
      g.inner.SeparatedBy .comma → (∀ i ∈ g.inner.items, Derives .string i.1 i.2) →
      Derives .target g.tokens
        (.mk (g.opener.span.join g.closer.span) g.leaves (.stringArray g.nodes))
  | composition (keyword : Token) (verb : CompositionVerb) (targets : Series) :
      keyword.kind = .keyword verb.keyword →
      targets.SeparatedBy .comma → targets.Tight →
      (∀ i ∈ targets.items, Derives .target i.1 i.2) →
      Derives .statement (keyword :: targets.tokens)
        (.mk (keyword.span.join ((targets.items.getLast?.map fun i => i.2.span).getD
            keyword.span))
          (keyword.leaf :: targets.leaves) (.composition verb targets.nodes))
  | declaration (keyword name : Token) (k : DeclarationKeyword) (parameters : Option Segment)
      (parent : Option (Token × Token)) {bs : List Token} {block : Node} :
      keyword.kind = .keyword k.keyword →
      name.kind = .name →
      (∀ p ∈ parameters, Derives (.parameters .leftParen .rightParen) p.1 p.2) →
      (∀ p ∈ parent, p.1.kind = .keyword .inherits) → (∀ p ∈ parent, p.2.kind = .name) →
      Derives .body bs block →
      Derives .statement
        (keyword :: name :: tokensOf parameters
          ++ (parent.map fun p => [p.1, p.2]).getD [] ++ bs)
        (.mk (keyword.span.join block.span) [keyword.leaf]
          (.declaration k name.identifier (parameters.map Prod.snd)
            (parent.map fun p => .mk (p.1.span.join p.2.span) [p.1.leaf]
              (.inheritance p.2.identifier)) block))
  | typeDeclaration (keyword name equals : Token) {ts : List Token} {type : Node} :
      keyword.kind = .keyword .type → name.kind = .reference →
      equals.kind = .symbol .equals → Derives .type ts type →
      Derives .statement (keyword :: name :: equals :: ts)
        (.mk (keyword.span.join type.span) [keyword.leaf, equals.leaf]
          (.typeDeclaration name.referenceIdentifier type))
  | functionDeclaration (keyword name : Token) (parameters : Option Segment)
      (result : Option (Token × Segment)) {bs : List Token} {block : Node} :
      keyword.kind = .keyword .function → name.kind = .name →
      (∀ p ∈ parameters, Derives (.parameters .leftParen .rightParen) p.1 p.2) →
      (∀ r ∈ result, r.1.kind = .symbol .rightShift) →
      (∀ r ∈ result, Derives .type r.2.1 r.2.2) → Derives .body bs block →
      Derives .statement
        (keyword :: name :: tokensOf parameters
          ++ (result.map fun r => r.1 :: r.2.1).getD [] ++ bs)
        (.mk (keyword.span.join block.span)
          (keyword.leaf :: (result.map fun r => r.1.leaf).toList)
          (.functionDeclaration name.identifier (parameters.map Prod.snd)
            (result.map fun r => r.2.2) block))
  | stringMatch {ts : List Token} {n : Node} : Derives .string ts n → Derives .nodeMatch ts n
  | regexMatch (t : Token) : t.kind = .regex → Derives .nodeMatch [t] t.regexNode
  | defaultMatch (t : Token) : t.kind = .keyword .default →
      Derives .nodeMatch [t] t.defaultNode
  | nodeDefinition (keyword : Token) (hosts : Series) {bs : List Token} {block : Node} :
      keyword.kind = .keyword .node → hosts.SeparatedBy .comma → hosts.Tight →
      (∀ i ∈ hosts.items, Derives .nodeMatch i.1 i.2) → Derives .body bs block →
      Derives .statement (keyword :: hosts.tokens ++ bs)
        (.mk (keyword.span.join block.span) (keyword.leaf :: hosts.leaves)
          (.nodeDefinition hosts.nodes block))
  /- Resources and chains. -/
  | resourceBody (colon : Token) {ts : List Token} {title : Node} (attributes : Series) :
      Derives (.expression false) ts title → title.rank ≤ Operator.valueRank →
      colon.kind = .symbol .colon → attributes.SeparatedBy .comma →
      (∀ i ∈ attributes.items, Derives .attribute i.1 i.2) →
      Derives .resourceBody (ts ++ colon :: attributes.tokens)
        (.mk (title.span.join (attributes.stopAfter colon.span)) (colon.leaf :: attributes.leaves)
          (.resourceBody title attributes.nodes))
  | resourceCall (sign : Option Token) (t : Token) (form : ResourceForm) (g : Group) :
      (∀ x ∈ sign, form = resourceForm x.kind) → (sign = none ↔ form = .ordinary) →
      t.kind = .name ∨ t.kind = .keyword .class →
      g.Between .leftBrace .rightBrace → g.inner.SeparatedBy .semicolon →
      g.inner.items ≠ [] → (∀ i ∈ g.inner.items, Derives .resourceBody i.1 i.2) →
      Derives .statement (sign.toList ++ t :: g.tokens)
        (.mk ((sign.getD t).span.join g.closer.span)
          (sign.toList.map Token.leaf ++ g.leaves)
          (.resourceCall form t.identifier g.nodes))
  | resourceDefaults (t : Token) (g : Group) : t.kind = .reference →
      g.Between .leftBrace .rightBrace → g.inner.SeparatedBy .comma →
      (∀ i ∈ g.inner.items, Derives .attribute i.1 i.2) →
      Derives .statement (t :: g.tokens)
        (.mk (t.span.join g.closer.span) g.leaves
          (.resourceDefaults t.referenceIdentifier g.nodes))
  | relation (t : Token) (arrow : ChainArrow) {ls rs : List Token} {l r : Node} :
      chainArrow? t.kind = some arrow → Derives .statement ls l → Derives .statement rs r →
      isChainElement l.kind → isChainElement r.kind → r.kind ≠ .relation →
      Derives .statement (ls ++ t :: rs)
        (.mk (l.span.join r.span) [t.leaf] (.relation arrow l r))
  | expressionStatement {ts : List Token} {n : Node} : Derives .statementExpression ts n →
      Derives .statement ts n

/-- Every construct has a token. -/
theorem Derives.ne_nil {c : Category} {ts : List Token} {n : Node} (h : Derives c ts n) :
    ts ≠ [] := by
  induction h with
  | quoted _ ih | bareOperand _ ih | single _ _ ih | plainCommand _ ih | nestedType _ ih
  | literalArgument _ _ _ ih | stringAttribute _ ih | valueKey _ _ ih | stringTarget _ ih
  | referenceTarget _ _ ih | stringMatch _ ih | expressionStatement _ ih => exact ih
  | lambda _ _ _ _ ih => simp [ih]
  | _ => simp [Group.tokens]

/-! ## Ranks -/

theorem commandRank_commandBinary {k : TokenKind} {o : Operator} (h : Operator.command? k = some o)
    (s : Span) (ls : List Leaf) (l r : Node) :
    (Node.mk s ls (.commandBinary (commandOperator o) l r)).commandRank = o.rank := by
  unfold Operator.command? at h
  split at h <;> cases h <;> rfl

/-- An operand with the operators before it has the rank zero. -/
theorem Derives.rank_eq_zero {ts : List Token} {n : Node} (h : Derives .unary ts n) :
    n.rank = 0 := by
  cases h with
  | prefixed => rfl
  | bareOperand h =>
    cases h with
    | quoted h => cases h; rfl
    | «variable» | name | referenceName | bareVariable => exact Node.rank_ofName _ _ _
    | _ => rfl

/-- No command operator stands outside the brackets of a plain expression. -/
theorem Derives.commandRank_eq_zero {ts : List Token} {n : Node} {command : Bool}
    (h : Derives (.expression command) ts n) : n.commandRank = 0 := by
  have ofName (s : Span) (form : NameForm) (cs : Text) :
      (Node.plain s (.ofName form cs)).commandRank = 0 := by
    obtain ⟨segments, absolute, h⟩ := @Shape.ofName_eq Node form cs
    rw [h]
    rfl
  cases h with
  | binary | assignment => rfl
  | single _ h =>
    cases h with
    | prefixed => rfl
    | bareOperand h =>
      cases h with
      | quoted h => cases h; rfl
      | «variable» | name | referenceName | bareVariable => exact ofName _ _ _
      | _ => rfl

theorem Derives.eq_default {ts : List Token} {n : Node} {command : Bool}
    (h : Derives (.expression command) ts n) (hn : n.kind = .default) :
    ∃ t, ts = [t] ∧ t.kind = .keyword .default ∧ n = t.defaultNode := by
  cases h with
  | binary | assignment => cases hn
  | single _ h =>
    cases h with
    | prefixed => cases hn
    | bareOperand h =>
      cases h with
      | default t ht => exact ⟨t, rfl, ht, rfl⟩
      | quoted h => cases h; cases hn
      | «variable» | name | referenceName | bareVariable =>
        exact absurd ((Node.kind_ofName _ _ _).symm.trans hn) (by decide)
      | _ => cases hn

/-! ## Kinds -/

def operandKinds : List Kind :=
  Place.expressionKinds.filter fun k => k ∉ [Kind.binary, .unary, .assignment]

/-- The kinds of nodes that a category has. -/
def Category.kinds : Category → List Kind
  | .string => [.string]
  | .operand => operandKinds
  | .unary => .unary :: operandKinds
  | .expression _ | .hashKey => Place.expression.kinds
  | .statementExpression => Place.statementExpression.kinds
  | .type => [.type]
  | .typeArgument => Place.typeArgument.kinds
  | .parameter => [.parameter]
  | .parameters _ _ => [.parameterList]
  | .body => [.body]
  | .lambda => [.lambda]
  | .attributeName => Place.attributeName.kinds
  | .attribute => [.attribute]
  | .selectorItem => [.selectorItem]
  | .hashEntry => [.hashEntry]
  | .elsif => [.elsif]
  | .otherwise => [.else]
  | .caseArm => Place.caseArm.kinds
  | .target => Place.compositionTarget.kinds
  | .nodeMatch => Place.nodeMatch.kinds
  | .resourceBody => [.resourceBody]
  | .statement => Place.statement.kinds

theorem Derives.kind_mem {c : Category} {ts : List Token} {n : Node} (h : Derives c ts n) :
    n.kind ∈ c.kinds := by
  have widen {ks ls : List Kind} {k : Kind} (hk : k ∈ ks) (hsub : ∀ k ∈ ks, k ∈ ls) : k ∈ ls :=
    hsub k hk
  have named {s : Span} {form : NameForm} {cs : Text} {ks : List Kind}
      (hk : .scopedName form ∈ ks) : (Node.plain s (.ofName form cs)).kind ∈ ks := by
    rwa [Node.kind_ofName]
  induction h with
  | quoted _ ih | bareOperand _ ih | plainCommand _ ih | nestedType _ ih
  | stringAttribute _ ih | valueKey _ _ ih | stringTarget _ ih | stringMatch _ ih
  | expressionStatement _ ih => exact widen ih (by decide)
  | single command _ ih => exact widen ih (by cases command <;> decide)
  | literalArgument _ _ hk => exact List.contains_iff_mem.mp hk
  | referenceTarget _ hk => rw [hk]; decide
  | «variable» | variableTarget | name | referenceName | namedTarget | bareVariable =>
    exact named (by decide)
  | collector _ _ _ exported => cases exported <;> exact List.contains_iff_mem.mp rfl
  | composition _ verb => cases verb <;> exact List.contains_iff_mem.mp rfl
  | _ => exact List.contains_iff_mem.mp rfl

/-- No chain is an operand. -/
theorem Derives.kind_ne_relation {ts : List Token} {n : Node} (h : Derives .operand ts n) :
    n.kind ≠ .relation := fun hn => absurd (hn ▸ h.kind_mem) (by decide)

/-- No operand has an operator before it. -/
theorem Derives.kind_ne_unary {ts : List Token} {n : Node} (h : Derives .operand ts n) :
    n.kind ≠ .unary := fun hn => absurd (hn ▸ h.kind_mem) (by decide)

end ManifestTree.Parse
