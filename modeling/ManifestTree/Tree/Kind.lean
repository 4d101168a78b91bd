import ManifestTree.Tree

/-!
# Kinds of elements

Every element has a kind, whose word discriminates it in stored trees.  Where an element may stand
is said by the kinds a place accepts: one kind, or any of a group such as the expressions.
-/

namespace ManifestTree

inductive Kind where
  | token | comment | integer | float | boolean | undef | default | bareword | regex | content
  | escape | scopedName (form : NameForm) | string | interpolation | heredoc | heredocTag
  | heredocBody | array | hash | hashEntry | binary | commandBinary | unary | assignment
  | parenthesized | selector | selectorItem | type | parameter | parameterList | lambda
  | functionCall | methodCall | indexAccess | reference | «attribute»
  | collector (exported : Bool) | body | elsif | «else» | «if» | «unless» | caseItem | caseDefault
  | «case» | identifierArray | stringArray | composition (verb : CompositionVerb) | inheritance
  | declaration | typeDeclaration | functionDeclaration | nodeDefinition | resourceBody
  | resourceCall | resourceDefaults | relation | manifest
deriving DecidableEq, Repr

namespace Kind

/-- A lowercase scoped name. -/
def identifier : Kind := .scopedName .identifier

/-- A capitalised scoped name. -/
def referenceIdentifier : Kind := .scopedName .referenceIdentifier

/-- A scoped name with a dollar sign. -/
def variableName : Kind := .scopedName .variable

/-- The word for a kind in stored trees. -/
def word : Kind → String
  | .token => "token" | .comment => "comment" | .integer => "integer" | .float => "float"
  | .boolean => "boolean" | .undef => "undef" | .default => "default"
  | .bareword => "unprotected_string" | .regex => "regex" | .content => "string_content"
  | .escape => "escape_sequence"
  | .scopedName .identifier => "identifier"
  | .scopedName .referenceIdentifier => "reference_identifier"
  | .scopedName .variable => "variable"
  | .string => "string" | .interpolation => "interpolation" | .heredoc => "heredoc"
  | .heredocTag => "heredoc_tag" | .heredocBody => "heredoc_body" | .array => "array"
  | .hash => "hash" | .hashEntry => "hash_entry" | .binary => "binary"
  | .commandBinary => "command_binary" | .unary => "unary" | .assignment => "assignment"
  | .parenthesized => "parenthesized" | .selector => "selector"
  | .selectorItem => "selector_item" | .type => "type" | .parameter => "parameter"
  | .parameterList => "parameter_list" | .lambda => "lambda" | .functionCall => "function_call"
  | .methodCall => "method_call" | .indexAccess => "index_access" | .reference => "reference"
  | .attribute => "attribute"
  | .collector false => "resource_collector"
  | .collector true => "exported_resource_collector"
  | .body => "body" | .elsif => "elsif" | .else => "else" | .if => "if" | .unless => "unless"
  | .caseItem => "case_item" | .caseDefault => "case_default" | .case => "case"
  | .identifierArray => "identifier_array" | .stringArray => "string_array"
  | .composition .include => "include" | .composition .require => "require"
  | .composition .contain => "contain"
  | .inheritance => "inheritance" | .declaration => "resource_declaration"
  | .typeDeclaration => "type_declaration" | .functionDeclaration => "function_declaration"
  | .nodeDefinition => "node_definition" | .resourceBody => "resource_body"
  | .resourceCall => "resource_call" | .resourceDefaults => "resource_defaults"
  | .relation => "relation" | .manifest => "manifest"

/-- Tokens and comments consume no signs of their own. -/
def isLeaf : Kind → Bool
  | .token | .comment => true
  | _ => false

end Kind

def Shape.kind {α : Type} : Shape α → Kind
  | .token _ => .token
  | .comment _ => .comment
  | .integer _ => .integer
  | .float _ => .float
  | .boolean _ => .boolean
  | .undef => .undef
  | .default => .default
  | .bareword _ => .bareword
  | .regex _ => .regex
  | .content _ => .content
  | .escape _ _ => .escape
  | .scopedName form _ _ => .scopedName form
  | .string _ _ => .string
  | .interpolation _ => .interpolation
  | .heredoc _ _ => .heredoc
  | .heredocTag _ _ _ _ => .heredocTag
  | .heredocBody _ _ => .heredocBody
  | .array _ => .array
  | .hash _ => .hash
  | .hashEntry _ _ => .hashEntry
  | .binary _ _ _ => .binary
  | .commandBinary _ _ _ => .commandBinary
  | .unary _ _ => .unary
  | .assignment _ _ => .assignment
  | .parenthesized _ => .parenthesized
  | .selector _ _ => .selector
  | .selectorItem _ _ => .selectorItem
  | .type _ _ => .type
  | .parameter _ _ _ _ => .parameter
  | .parameterList _ => .parameterList
  | .lambda _ _ => .lambda
  | .functionCall _ _ _ => .functionCall
  | .methodCall _ _ _ _ => .methodCall
  | .indexAccess _ _ => .indexAccess
  | .reference _ _ => .reference
  | .attribute _ _ _ => .attribute
  | .collector exported _ _ _ => .collector exported
  | .body _ => .body
  | .elsif _ _ => .elsif
  | .else _ => .else
  | .if _ _ _ _ => .if
  | .unless _ _ _ => .unless
  | .caseItem _ _ => .caseItem
  | .caseDefault _ => .caseDefault
  | .case _ _ => .case
  | .identifierArray _ => .identifierArray
  | .stringArray _ => .stringArray
  | .composition verb _ => .composition verb
  | .inheritance _ => .inheritance
  | .declaration _ _ _ _ _ => .declaration
  | .typeDeclaration _ _ => .typeDeclaration
  | .functionDeclaration _ _ _ _ => .functionDeclaration
  | .nodeDefinition _ _ => .nodeDefinition
  | .resourceBody _ _ => .resourceBody
  | .resourceCall _ _ _ => .resourceCall
  | .resourceDefaults _ _ => .resourceDefaults
  | .relation _ _ _ => .relation
  | .manifest _ _ => .manifest

def Node.kind (n : Node) : Kind := n.shape.kind

/-- What a place in a tree accepts. -/
inductive Place where
  /-- Elements of one kind. -/
  | only (kind : Kind)
  /-- Whatever can stand where a value is expected. -/
  | expression
  /-- Expressions, and those joined by the statement forms of `and` and `or`. -/
  | statementExpression
  | statement
  | stringFragment
  | typeArgument
  | attributeName
  | compositionTarget
  | caseArm
  | nodeMatch
  /-- Either side of a chaining arrow. -/
  | chainElement
deriving DecidableEq, Repr

namespace Place

/-- The kinds of expressions. -/
def expressionKinds : List Kind := [
  .identifier, .referenceIdentifier, .variableName, .integer, .float, .boolean, .undef, .default,
  .bareword, .regex, .string, .heredoc, .array, .hash, .binary, .unary, .assignment,
  .parenthesized, .selector, .functionCall, .methodCall, .indexAccess, .reference,
  .collector false, .collector true]

/-- The kinds of statements that are no expressions. -/
def otherStatementKinds : List Kind := [
  .if, .unless, .case, .composition .include, .composition .require, .composition .contain,
  .declaration, .typeDeclaration, .functionDeclaration, .nodeDefinition, .resourceCall,
  .resourceDefaults, .relation]

/-- The kinds that a place accepts. -/
def kinds : Place → List Kind
  | .only kind => [kind]
  | .expression => expressionKinds
  | .statementExpression => expressionKinds ++ [.commandBinary]
  | .statement => expressionKinds ++ .commandBinary :: otherStatementKinds
  | .stringFragment => [.content, .escape, .interpolation, .variableName]
  | .typeArgument => [.type, .string, .integer, .float, .regex, .hash, .default, .undef, .unary]
  | .attributeName => [.bareword, .string, .token]
  | .compositionTarget =>
    [.identifier, .reference, .identifierArray, .variableName, .stringArray, .string]
  | .caseArm => [.caseItem, .caseDefault]
  | .nodeMatch => [.string, .regex, .default]
  | .chainElement =>
    [.resourceCall, .reference, .collector false, .collector true, .relation]

end Place

end ManifestTree
