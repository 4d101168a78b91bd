import ManifestTree.Tree.Kind

/-!
# Fields of elements

The schema of a kind lists its fields in order: name, type, and what stands for a field that is
left out.  A shape is its kind and the values of its fields, `Shape.fields`; `Shape.ofFields?`
builds it again, and `Shape.ofFields?_fields` says that nothing is lost on the way.
-/

namespace ManifestTree

/-! ## Words for choices -/

/-- A type whose members are written as words. -/
class Worded (α : Type) where
  /-- Every member with its word. -/
  words : List (α × String)

/-- The words of a type. -/
def Worded.all (α : Type) [Worded α] : List String := (Worded.words (α := α)).map (·.2)

/-- The word for a member. -/
def toWord {α : Type} [Worded α] [DecidableEq α] (a : α) : String :=
  ((Worded.words.find? fun p => p.1 = a).map (·.2)).getD ""

/-- The member with a word. -/
def ofWord? {α : Type} [Worded α] (w : String) : Option α :=
  (Worded.words.find? fun p => p.2 = w).map (·.1)

instance : Worded QuoteStyle := ⟨[(.single, "single"), (.double, "double")]⟩

instance : Worded Quoting := ⟨[(.bare, "none"), (.double, "double"), (.single, "single")]⟩

instance : Worded Trim := ⟨[(⟨false, false⟩, "none"), (⟨true, false⟩, "margin"),
  (⟨false, true⟩, "chomp"), (⟨true, true⟩, "margin_chomp")]⟩

instance : Worded CommandOperator := ⟨[(.and, "and"), (.or, "or")]⟩

instance : Worded UnaryOperator := ⟨[(.not, "!"), (.negate, "-"), (.splat, "*")]⟩

instance : Worded AttributeOperator := ⟨[(.set, "=>"), (.add, "+>")]⟩

instance : Worded DeclarationKeyword :=
  ⟨[(.class, "class"), (.define, "define"), (.plan, "plan")]⟩

instance : Worded ResourceForm :=
  ⟨[(.ordinary, "ordinary"), (.virtual, "virtual"), (.exported, "exported")]⟩

instance : Worded ChainArrow := ⟨[(.order, "->"), (.notify, "~>")]⟩

/-! ## Fields -/

/-- The value of a field, with elements of type `α`. -/
inductive Field (α : Type) where
  | integer (i : Int)
  | real (r : Binary64)
  | flag (b : Bool)
  /-- Text, or nothing where it may be missing. -/
  | text (t : Option Text)
  | texts (ts : List Text)
  /-- One of some words. -/
  | word (w : String)
  /-- An element, or nothing where it may be missing. -/
  | child (c : Option α)
  /-- Elements in order, or nothing where they may be missing. -/
  | children (cs : Option (List α))
deriving Repr

/-- The types of fields. -/
inductive FieldType where
  | integer
  | real
  | flag
  | text
  | optionalText
  | texts
  | word (words : List String)
  | child (place : Place)
  | optionalChild (place : Place)
  | children (place : Place)
  | optionalChildren (place : Place)
deriving DecidableEq, Repr

/-- What stands for a field that is left out. -/
inductive Omission where
  /-- The field must not be left out. -/
  | required
  /-- Nothing. -/
  | absent
  /-- An empty list. -/
  | emptyList
  /-- The value `false`. -/
  | no
  /-- A word. -/
  | word (w : String)
deriving DecidableEq, Repr

/-- A field of a kind. -/
structure FieldDecl where
  /-- Its name in stored trees. -/
  name : String
  /-- What it holds. -/
  type : FieldType
  /-- What stands for it when it is left out. -/
  omission : Omission
deriving DecidableEq, Repr

namespace FieldDecl

/-- A field that must be there. -/
def need (name : String) (type : FieldType) : FieldDecl := ⟨name, type, .required⟩

/-- Elements that may be none and may be left out. -/
def list (name : String) (place : Place) : FieldDecl := ⟨name, .children place, .emptyList⟩

/-- An element that may be missing. -/
def optional (name : String) (place : Place) : FieldDecl := ⟨name, .optionalChild place, .absent⟩

/-- Elements that may be missing altogether. -/
def optionalList (name : String) (place : Place) : FieldDecl :=
  ⟨name, .optionalChildren place, .absent⟩

/-- Text that may be missing. -/
def optionalText (name : String) : FieldDecl := ⟨name, .optionalText, .absent⟩

end FieldDecl

open FieldDecl

/-- The fields of a kind in order. -/
def Kind.schema : Kind → List FieldDecl
  | .token | .comment => [need "text" .text]
  | .integer => [need "value" .integer]
  | .float => [need "value" .real]
  | .boolean => [need "value" .flag]
  | .undef | .default => []
  | .bareword | .content => [need "value" .text]
  | .regex => [need "pattern" .text]
  | .escape => [need "text" .text, need "value" .text]
  | .scopedName _ => [need "segments" .texts, ⟨"absolute", .flag, .no⟩]
  | .string =>
    [need "quote" (.word (Worded.all QuoteStyle)), list "fragments" .stringFragment]
  | .interpolation => [need "expression" (.child .expression)]
  | .heredoc => [need "tag" (.child (.only .heredocTag)), need "body" (.child (.only .heredocBody))]
  | .heredocTag =>
    [need "terminator" .text, ⟨"quoting", .word (Worded.all Quoting), .word "none"⟩,
      optionalText "syntax", optionalText "escapes"]
  | .heredocBody =>
    [⟨"trim", .word (Worded.all Trim), .word "none"⟩, list "fragments" .stringFragment]
  | .array => [list "elements" .expression]
  | .hash => [list "entries" (.only .hashEntry)]
  | .hashEntry | .selectorItem =>
    [need "key" (.child .expression), need "value" (.child .expression)]
  | .binary =>
    [need "operator" .text, need "left" (.child .expression), need "right" (.child .expression)]
  | .commandBinary =>
    [need "operator" (.word (Worded.all CommandOperator)),
      need "left" (.child .statementExpression), need "right" (.child .statementExpression)]
  | .unary =>
    [need "operator" (.word (Worded.all UnaryOperator)), need "operand" (.child .expression)]
  | .assignment => [need "target" (.child .expression), need "value" (.child .expression)]
  | .parenthesized => [need "expression" (.child .expression)]
  | .selector => [need "subject" (.child .expression), list "items" (.only .selectorItem)]
  | .type =>
    [need "name" (.child (.only .referenceIdentifier)), optionalList "arguments" .typeArgument]
  | .parameter =>
    [optional "type" (.only .type), ⟨"captures_rest", .flag, .no⟩,
      need "variable" (.child (.only .variableName)), optional "value" .expression]
  | .parameterList => [list "parameters" (.only .parameter)]
  | .lambda => [optional "parameters" (.only .parameterList), need "body" (.child (.only .body))]
  | .functionCall =>
    [need "name" (.child (.only .identifier)), list "arguments" .expression,
      optional "block" (.only .lambda)]
  | .methodCall =>
    [need "receiver" (.child .expression), need "name" (.child (.only .identifier)),
      optionalList "arguments" .expression, optional "block" (.only .lambda)]
  | .indexAccess =>
    [need "target" (.child .expression), need "indices" (.children .expression)]
  | .reference =>
    [need "type" (.child (.only .referenceIdentifier)), need "indices" (.children .expression)]
  | .attribute =>
    [need "name" (.child .attributeName),
      ⟨"operator", .word (Worded.all AttributeOperator), .word "=>"⟩,
      need "value" (.child .expression)]
  | .collector _ =>
    [need "type" (.child (.only .referenceIdentifier)), optional "query" .expression,
      optionalList "attributes" (.only .attribute)]
  | .body => [list "statements" .statement]
  | .elsif => [need "condition" (.child .statementExpression), need "body" (.child (.only .body))]
  | .else => [need "body" (.child (.only .body))]
  | .if =>
    [need "condition" (.child .statementExpression), need "body" (.child (.only .body)),
      list "elsifs" (.only .elsif), optional "else_branch" (.only .else)]
  | .unless =>
    [need "condition" (.child .statementExpression), need "body" (.child (.only .body)),
      optional "else_branch" (.only .else)]
  | .caseItem => [need "options" (.children .expression), need "body" (.child (.only .body))]
  | .caseDefault => [need "body" (.child (.only .body))]
  | .case => [need "subject" (.child .expression), list "arms" .caseArm]
  | .identifierArray => [list "identifiers" (.only .identifier)]
  | .stringArray => [list "strings" (.only .string)]
  | .composition _ => [need "targets" (.children .compositionTarget)]
  | .inheritance => [need "name" (.child (.only .identifier))]
  | .declaration =>
    [need "keyword" (.word (Worded.all DeclarationKeyword)),
      need "name" (.child (.only .identifier)), optional "parameters" (.only .parameterList),
      optional "inheritance" (.only .inheritance), need "body" (.child (.only .body))]
  | .typeDeclaration =>
    [need "name" (.child (.only .referenceIdentifier)), need "type" (.child (.only .type))]
  | .functionDeclaration =>
    [need "name" (.child (.only .identifier)), optional "parameters" (.only .parameterList),
      optional "return_type" (.only .type), need "body" (.child (.only .body))]
  | .nodeDefinition => [need "matches" (.children .nodeMatch), need "body" (.child (.only .body))]
  | .resourceBody => [need "title" (.child .expression), list "attributes" (.only .attribute)]
  | .resourceCall =>
    [⟨"form", .word (Worded.all ResourceForm), .word "ordinary"⟩,
      need "type" (.child (.only .identifier)), need "bodies" (.children (.only .resourceBody))]
  | .resourceDefaults =>
    [need "type" (.child (.only .referenceIdentifier)), list "attributes" (.only .attribute)]
  | .relation =>
    [need "arrow" (.word (Worded.all ChainArrow)), need "left" (.child .chainElement),
      need "right" (.child .chainElement)]
  | .manifest => [list "statements" .statement, list "comments" (.only .comment)]

namespace Shape

variable {α : Type}

/-- The values of the fields of a shape, in the order of its schema. -/
def fields : Shape α → List (Field α)
  | .token t | .comment t => [.text (some t)]
  | .integer v => [.integer v]
  | .float v => [.real v]
  | .boolean v => [.flag v]
  | .undef | .default => []
  | .bareword v | .content v => [.text (some v)]
  | .regex p => [.text (some p)]
  | .escape t v => [.text (some t), .text (some v)]
  | .scopedName _ s a => [.texts s, .flag a]
  | .string q fs => [.word (toWord q), .children (some fs)]
  | .interpolation e => [.child (some e)]
  | .heredoc t b => [.child (some t), .child (some b)]
  | .heredocTag t q l e => [.text (some t), .word (toWord q), .text l, .text e]
  | .heredocBody t fs => [.word (toWord t), .children (some fs)]
  | .array es => [.children (some es)]
  | .hash es => [.children (some es)]
  | .hashEntry k v => [.child (some k), .child (some v)]
  | .binary o l r => [.text (some o), .child (some l), .child (some r)]
  | .commandBinary o l r => [.word (toWord o), .child (some l), .child (some r)]
  | .unary o e => [.word (toWord o), .child (some e)]
  | .assignment t v => [.child (some t), .child (some v)]
  | .parenthesized e => [.child (some e)]
  | .selector s is => [.child (some s), .children (some is)]
  | .selectorItem k v => [.child (some k), .child (some v)]
  | .type n as => [.child (some n), .children as]
  | .parameter t c n v => [.child t, .flag c, .child (some n), .child v]
  | .parameterList ps => [.children (some ps)]
  | .lambda ps b => [.child ps, .child (some b)]
  | .functionCall n as b => [.child (some n), .children (some as), .child b]
  | .methodCall r n as b => [.child (some r), .child (some n), .children as, .child b]
  | .indexAccess t is => [.child (some t), .children (some is)]
  | .reference t is => [.child (some t), .children (some is)]
  | .attribute n o v => [.child (some n), .word (toWord o), .child (some v)]
  | .collector _ t q as => [.child (some t), .child q, .children as]
  | .body ss => [.children (some ss)]
  | .elsif c b => [.child (some c), .child (some b)]
  | .else b => [.child (some b)]
  | .if c b es e => [.child (some c), .child (some b), .children (some es), .child e]
  | .unless c b e => [.child (some c), .child (some b), .child e]
  | .caseItem os b => [.children (some os), .child (some b)]
  | .caseDefault b => [.child (some b)]
  | .case s as => [.child (some s), .children (some as)]
  | .identifierArray is => [.children (some is)]
  | .stringArray ss => [.children (some ss)]
  | .composition _ ts => [.children (some ts)]
  | .inheritance n => [.child (some n)]
  | .declaration k n ps i b =>
    [.word (toWord k), .child (some n), .child ps, .child i, .child (some b)]
  | .typeDeclaration n t => [.child (some n), .child (some t)]
  | .functionDeclaration n ps t b => [.child (some n), .child ps, .child t, .child (some b)]
  | .nodeDefinition hs b => [.children (some hs), .child (some b)]
  | .resourceBody t as => [.child (some t), .children (some as)]
  | .resourceCall k t bs => [.word (toWord k), .child (some t), .children (some bs)]
  | .resourceDefaults t as => [.child (some t), .children (some as)]
  | .relation a l r => [.word (toWord a), .child (some l), .child (some r)]
  | .manifest ss cs => [.children (some ss), .children (some cs)]

/-- The shape of a kind with the given values of its fields, if they fit. -/
def ofFields? (kind : Kind) (fields : List (Field α)) : Option (Shape α) :=
  match kind with
  | .token => match fields with
    | [.text (some t)] => some (.token t)
    | _ => none
  | .comment => match fields with
    | [.text (some t)] => some (.comment t)
    | _ => none
  | .integer => match fields with
    | [.integer v] => some (.integer v)
    | _ => none
  | .float => match fields with
    | [.real v] => some (.float v)
    | _ => none
  | .boolean => match fields with
    | [.flag v] => some (.boolean v)
    | _ => none
  | .undef => match fields with
    | [] => some .undef
    | _ => none
  | .default => match fields with
    | [] => some .default
    | _ => none
  | .bareword => match fields with
    | [.text (some v)] => some (.bareword v)
    | _ => none
  | .content => match fields with
    | [.text (some v)] => some (.content v)
    | _ => none
  | .regex => match fields with
    | [.text (some p)] => some (.regex p)
    | _ => none
  | .escape => match fields with
    | [.text (some t), .text (some v)] => some (.escape t v)
    | _ => none
  | .scopedName form => match fields with
    | [.texts s, .flag a] => some (.scopedName form s a)
    | _ => none
  | .string => match fields with
    | [.word q, .children (some fs)] => (ofWord? q).map (.string · fs)
    | _ => none
  | .interpolation => match fields with
    | [.child (some e)] => some (.interpolation e)
    | _ => none
  | .heredoc => match fields with
    | [.child (some t), .child (some b)] => some (.heredoc t b)
    | _ => none
  | .heredocTag => match fields with
    | [.text (some t), .word q, .text l, .text e] => (ofWord? q).map (.heredocTag t · l e)
    | _ => none
  | .heredocBody => match fields with
    | [.word t, .children (some fs)] => (ofWord? t).map (.heredocBody · fs)
    | _ => none
  | .array => match fields with
    | [.children (some es)] => some (.array es)
    | _ => none
  | .hash => match fields with
    | [.children (some es)] => some (.hash es)
    | _ => none
  | .hashEntry => match fields with
    | [.child (some k), .child (some v)] => some (.hashEntry k v)
    | _ => none
  | .binary => match fields with
    | [.text (some o), .child (some l), .child (some r)] => some (.binary o l r)
    | _ => none
  | .commandBinary => match fields with
    | [.word o, .child (some l), .child (some r)] => (ofWord? o).map (.commandBinary · l r)
    | _ => none
  | .unary => match fields with
    | [.word o, .child (some e)] => (ofWord? o).map (.unary · e)
    | _ => none
  | .assignment => match fields with
    | [.child (some t), .child (some v)] => some (.assignment t v)
    | _ => none
  | .parenthesized => match fields with
    | [.child (some e)] => some (.parenthesized e)
    | _ => none
  | .selector => match fields with
    | [.child (some s), .children (some is)] => some (.selector s is)
    | _ => none
  | .selectorItem => match fields with
    | [.child (some k), .child (some v)] => some (.selectorItem k v)
    | _ => none
  | .type => match fields with
    | [.child (some n), .children as] => some (.type n as)
    | _ => none
  | .parameter => match fields with
    | [.child t, .flag c, .child (some n), .child v] => some (.parameter t c n v)
    | _ => none
  | .parameterList => match fields with
    | [.children (some ps)] => some (.parameterList ps)
    | _ => none
  | .lambda => match fields with
    | [.child ps, .child (some b)] => some (.lambda ps b)
    | _ => none
  | .functionCall => match fields with
    | [.child (some n), .children (some as), .child b] => some (.functionCall n as b)
    | _ => none
  | .methodCall => match fields with
    | [.child (some r), .child (some n), .children as, .child b] => some (.methodCall r n as b)
    | _ => none
  | .indexAccess => match fields with
    | [.child (some t), .children (some is)] => some (.indexAccess t is)
    | _ => none
  | .reference => match fields with
    | [.child (some t), .children (some is)] => some (.reference t is)
    | _ => none
  | .attribute => match fields with
    | [.child (some n), .word o, .child (some v)] => (ofWord? o).map (.attribute n · v)
    | _ => none
  | .collector exported => match fields with
    | [.child (some t), .child q, .children as] => some (.collector exported t q as)
    | _ => none
  | .body => match fields with
    | [.children (some ss)] => some (.body ss)
    | _ => none
  | .elsif => match fields with
    | [.child (some c), .child (some b)] => some (.elsif c b)
    | _ => none
  | .else => match fields with
    | [.child (some b)] => some (.else b)
    | _ => none
  | .if => match fields with
    | [.child (some c), .child (some b), .children (some es), .child e] => some (.if c b es e)
    | _ => none
  | .unless => match fields with
    | [.child (some c), .child (some b), .child e] => some (.unless c b e)
    | _ => none
  | .caseItem => match fields with
    | [.children (some os), .child (some b)] => some (.caseItem os b)
    | _ => none
  | .caseDefault => match fields with
    | [.child (some b)] => some (.caseDefault b)
    | _ => none
  | .case => match fields with
    | [.child (some s), .children (some as)] => some (.case s as)
    | _ => none
  | .identifierArray => match fields with
    | [.children (some is)] => some (.identifierArray is)
    | _ => none
  | .stringArray => match fields with
    | [.children (some ss)] => some (.stringArray ss)
    | _ => none
  | .composition verb => match fields with
    | [.children (some ts)] => some (.composition verb ts)
    | _ => none
  | .inheritance => match fields with
    | [.child (some n)] => some (.inheritance n)
    | _ => none
  | .declaration => match fields with
    | [.word k, .child (some n), .child ps, .child i, .child (some b)] =>
      (ofWord? k).map (.declaration · n ps i b)
    | _ => none
  | .typeDeclaration => match fields with
    | [.child (some n), .child (some t)] => some (.typeDeclaration n t)
    | _ => none
  | .functionDeclaration => match fields with
    | [.child (some n), .child ps, .child t, .child (some b)] =>
      some (.functionDeclaration n ps t b)
    | _ => none
  | .nodeDefinition => match fields with
    | [.children (some hs), .child (some b)] => some (.nodeDefinition hs b)
    | _ => none
  | .resourceBody => match fields with
    | [.child (some t), .children (some as)] => some (.resourceBody t as)
    | _ => none
  | .resourceCall => match fields with
    | [.word k, .child (some t), .children (some bs)] => (ofWord? k).map (.resourceCall · t bs)
    | _ => none
  | .resourceDefaults => match fields with
    | [.child (some t), .children (some as)] => some (.resourceDefaults t as)
    | _ => none
  | .relation => match fields with
    | [.word a, .child (some l), .child (some r)] => (ofWord? a).map (.relation · l r)
    | _ => none
  | .manifest => match fields with
    | [.children (some ss), .children (some cs)] => some (.manifest ss cs)
    | _ => none

end Shape

/-- The elements that a field holds. -/
def Field.elements {α : Type} : Field α → List α
  | .child c => c.toList
  | .children cs => cs.getD []
  | _ => []

/-- The elements that a shape holds, field after field. -/
def Shape.elements {α : Type} (s : Shape α) : List α := s.fields.flatMap Field.elements

theorem Shape.ofFields?_fields {α : Type} (s : Shape α) :
    Shape.ofFields? s.kind s.fields = some s := by
  cases s with
  | string q _ => cases q <;> rfl
  | heredocTag _ q _ _ => cases q <;> rfl
  | heredocBody t _ => rcases t with ⟨_ | _, _ | _⟩ <;> rfl
  | commandBinary o _ _ => cases o <;> rfl
  | unary o _ => cases o <;> rfl
  | «attribute» _ o _ => cases o <;> rfl
  | declaration k _ _ _ _ => cases k <;> rfl
  | resourceCall f _ _ => cases f <;> rfl
  | relation a _ _ => cases a <;> rfl
  | _ => rfl

end ManifestTree
