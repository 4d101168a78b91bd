import ManifestTree.Parse.Expression

/-!
# Statements

Keyword statements, declarations, resources and chains.  Whatever is none of these is a statement
expression.
-/

namespace ManifestTree.Parse

open ManifestTree.Parser

/-! ## Conditionals -/

/-- A condition, after which a brace opens a body. -/
def condition (g : Grammar) : Parser Node :=
  withBraceBlocks false (command g Operator.commandRank)

/-- An `else` branch, if one follows. -/
def optionalElse (g : Grammar) : Parser (Option Node) := do
  if ← nextIs (.keyword .else) then
    let keyword ← advance
    let block ← body g
    return some (.mk (keyword.span.join block.span) [keyword.leaf] (.else block))
  else return none

def elsif (g : Grammar) : Parser Node := do
  let keyword ← advance
  let test ← condition g
  let block ← body g
  return .mk (keyword.span.join block.span) [keyword.leaf] (.elsif test block)

def ifStatement (g : Grammar) : Parser Node := do
  let keyword ← advance
  let test ← condition g
  let block ← body g
  let (elsifs, _) ← untilClosed (· ≠ .keyword .elsif) (fun _ : Unit => return (← elsif g, ())) ()
  let otherwise ← optionalElse g
  let lastBody := (elsifs.getLast?.map Node.span).getD block.span
  let stop := (otherwise.map Node.span).getD lastBody
  return .mk (keyword.span.join stop) [keyword.leaf] (.if test block elsifs otherwise)

def unlessStatement (g : Grammar) : Parser Node := do
  let keyword ← advance
  let test ← condition g
  let block ← body g
  let otherwise ← optionalElse g
  let stop := (otherwise.map Node.span).getD block.span
  return .mk (keyword.span.join stop) [keyword.leaf] (.unless test block otherwise)

/-- The options of a case arm so far. -/
structure CaseOptions where
  /-- The options, the latest first. -/
  options : List Node
  /-- The commas, the latest first. -/
  commas : List Leaf
  /-- The keyword of the default among them. -/
  default : Option Token

/-- Adds an option to those of an arm.  There may be one default in the whole statement. -/
def caseOption (g : Grammar) (seen : Bool) (o : CaseOptions) : Parser CaseOptions := do
  let t ← current
  let option ← g.value
  if option.kind = .default then
    if seen || o.default.isSome then reject (.duplicateDefault .caseStatement) t.span
    else return { o with options := option :: o.options, default := some t }
  else return { o with options := option :: o.options }

/-- The options of a case arm with commas between them. -/
def caseOptions (g : Grammar) (seen : Bool) : Parser CaseOptions := do
  let first ← caseOption g seen ⟨[], [], none⟩
  repeatFrom (fun o => do
    if ← atSymbol .comma then
      let comma ← advanceLeaf
      .inl <$> caseOption g seen { o with commas := comma :: o.commas }
    else return .inr { o with options := o.options.reverse, commas := o.commas.reverse }) first

/-- One arm of a case statement.  The default alone makes an arm of its own kind, which keeps the
keyword among its signs. -/
def caseArm (g : Grammar) (seen : Bool) : Parser (Node × Bool) := do
  let first ← current
  let o ← caseOptions g seen
  let colon ← expectSymbol .colon
  let block ← body g
  let span := first.span.join block.span
  let leaves := o.commas ++ [colon.leaf]
  let arm := match o.default, o.options with
    | some keyword, [_] => Node.mk span (keyword.leaf :: leaves) (.caseDefault block)
    | _, options => Node.mk span leaves (.caseItem options block)
  return (arm, seen || o.default.isSome)

def caseStatement (g : Grammar) : Parser Node := do
  let keyword ← advance
  let subject ← withBraceBlocks false (binary g Operator.expressionRank false)
  let opener ← expectSymbol .leftBrace
  let (arms, _) ← untilClosed (closedBy .rightBrace) (caseArm g) false
  let close ← expectSymbol .rightBrace
  return .mk (keyword.span.join close.span) [keyword.leaf, opener.leaf, close.leaf]
    (.case subject arms)

/-! ## Composition -/

/-- An array of strings if it begins with one, and of names otherwise. -/
def compositionArray (g : Grammar) : Parser Node := do
  let opener ← advance
  let ofStrings ← nextIs .string
  let item : Parser Node := do
    if ofStrings then liftM ((← expect .string).stringNode g)
    else return (← expect .name).identifier
  let (items, commas) ← commaList (closedBy .rightBracket) item
  let close ← expectSymbol .rightBracket
  return .mk (opener.span.join close.span) (opener.leaf :: commas ++ [close.leaf])
    (if ofStrings then .stringArray items else .identifierArray items)

def compositionTarget (g : Grammar) : Parser Node := do
  let t ← current
  let next ← second
  match t.kind with
  | .name => return (← advance).named .compositionTarget
  | .variable => return (← advance).variableNode
  | .string =>
    let _ ← advance
    liftM (t.stringNode g)
  | .symbol .leftBracket => compositionArray g
  | .reference =>
    if next.kind = .symbol .leftBracket && next.span.start = t.span.stop then referenceOperand g
    else unexpected t .compositionTarget
  | _ => unexpected t .compositionTarget

/-- A statement that composes classes. -/
def composition (g : Grammar) (verb : CompositionVerb) : Parser Node := do
  let keyword ← advance
  let (targets, commas) ← commaSeparated (compositionTarget g)
  let stop := (targets.getLast?.map Node.span).getD keyword.span
  return .mk (keyword.span.join stop) (keyword.leaf :: commas) (.composition verb targets)

/-! ## Declarations -/

/-- The name that a declaration gives. -/
def declaredName : Parser Node := do
  let t ← current
  if t.kind ≠ .name then unexpected t .declaredName else return (← advance).identifier

/-- Parameters between parentheses, if there are any. -/
def optionalParameters (g : Grammar) : Parser (Option Node) := do
  if ← atSymbol .leftParen then
    some <$> withBraceBlocks true (parameterList g .leftParen .rightParen)
  else return none

/-- The parent of a class, if one is named. -/
def optionalInheritance : Parser (Option Node) := do
  if ← nextIs (.keyword .inherits) then
    let keyword ← advance
    let parent ← declaredName
    return some (.mk (keyword.span.join parent.span) [keyword.leaf] (.inheritance parent))
  else return none

/-- A class, defined type or plan. -/
def declaration (g : Grammar) (keyword : DeclarationKeyword) : Parser Node := do
  let t ← advance
  let name ← declaredName
  let parameters ← optionalParameters g
  let inheritance ← optionalInheritance
  let block ← body g
  return .mk (t.span.join block.span) [t.leaf]
    (.declaration keyword name parameters inheritance block)

def typeDeclaration (g : Grammar) : Parser Node := do
  let keyword ← advance
  let name ← expect .reference
  let equals ← expectSymbol .equals
  let type ← typeExpression g
  return .mk (keyword.span.join type.span) [keyword.leaf, equals.leaf]
    (.typeDeclaration name.referenceIdentifier type)

def functionDeclaration (g : Grammar) : Parser Node := do
  let keyword ← advance
  let name ← declaredName
  let parameters ← optionalParameters g
  let arrow ← if ← atSymbol .rightShift then some <$> advanceLeaf else pure none
  let returnType ← if arrow.isSome then some <$> typeExpression g else pure none
  let block ← body g
  return .mk (keyword.span.join block.span) (keyword.leaf :: arrow.toList)
    (.functionDeclaration name parameters returnType block)

/-- What a node definition matches: a string, a regular expression or the default. -/
def nodeMatch (g : Grammar) : Parser Node := do
  let t ← current
  match t.kind with
  | .string =>
    let _ ← advance
    liftM (t.stringNode g)
  | .regex => return (← advance).regexNode
  | .keyword .default => return (← advance).defaultNode
  | _ => unexpected t .nodeMatch

def nodeDefinition (g : Grammar) : Parser Node := do
  let keyword ← advance
  let (hosts, commas) ← commaSeparated (nodeMatch g)
  let block ← body g
  return .mk (keyword.span.join block.span) (keyword.leaf :: commas) (.nodeDefinition hosts block)

/-! ## Resources -/

/-- Tokens that end the attributes of a resource body. -/
def endsResourceBody (k : TokenKind) : Bool :=
  k = .symbol .semicolon || k = .symbol .rightBrace || k = .endOfInput

/-- A title, a colon and attributes. -/
def resourceBody (g : Grammar) : Parser Node := do
  let title ← binaryIn g .resourceTitle Operator.valueRank false
  let colon ← current
  if colon.kind = .endOfInput then reject .missingTitleColon colon.span
  else if colon.kind ≠ .symbol .colon then unexpected colon .titleColon
  else
    let _ ← advance
    let (items, commas) ← attributes g endsResourceBody
    let lastItem := (items.getLast?.map Node.span).getD colon.span
    let stop := match commas.getLast? with
      | some comma => if lastItem.stop < comma.span.stop then comma.span else lastItem
      | none => lastItem
    return .mk (title.span.join stop) (colon.leaf :: commas) (.resourceBody title items)

/-- Resource bodies with semicolons between them and perhaps after the last. -/
def resourceBodies (g : Grammar) : Parser (List Node × List Leaf) :=
  repeatFrom (fun (bodies, semicolons) => do
    let bodies := (← resourceBody g) :: bodies
    if ← atSymbol .semicolon then
      let semicolons := (← advanceLeaf) :: semicolons
      if ← atSymbol .rightBrace then return .inr (bodies.reverse, semicolons.reverse)
      else return .inl (bodies, semicolons)
    else return .inr (bodies.reverse, semicolons.reverse)) ([], [])

/-- How the sign in front of a resource declares it. -/
def resourceForm : TokenKind → ResourceForm
  | .symbol .at => .virtual
  | .symbol .atAt => .exported
  | _ => .ordinary

def resourceCall (g : Grammar) : Parser Node := do
  let first ← current
  let form := resourceForm first.kind
  let sign ← if form ≠ .ordinary then some <$> advanceLeaf else pure none
  let t ← current
  if t.kind ≠ .name && t.kind ≠ .keyword .class then unexpected t .resourceType
  else
    let type := (← advance).named .resourceType
    let opener ← expectSymbol .leftBrace
    let (bodies, semicolons) ← withBraceBlocks true (resourceBodies g)
    let close ← current
    if close.kind ≠ .symbol .rightBrace then
      reject (.unterminatedResource close.text) close.span
    else
      let _ ← advance
      return .mk (first.span.join close.span)
        (sign.toList ++ opener.leaf :: semicolons ++ [close.leaf]) (.resourceCall form type bodies)

/-- Attributes that are the defaults of a resource type. -/
def resourceDefaults (g : Grammar) : Parser Node := do
  let t ← advance
  let opener ← expectSymbol .leftBrace
  let (items, commas) ← withBraceBlocks true (attributes g (closedBy .rightBrace))
  let close ← expectSymbol .rightBrace
  return .mk (t.span.join close.span) (opener.leaf :: commas ++ [close.leaf])
    (.resourceDefaults t.referenceIdentifier items)

/-! ## Chains -/

/-- What may stand on either side of a chaining arrow. -/
def isChainElement (k : Kind) : Bool := Place.chainElement.kinds.contains k

/-- The arrow that a kind of token is. -/
def chainArrow? : TokenKind → Option ChainArrow
  | .symbol .inEdge => some .order
  | .symbol .inEdgeSub => some .notify
  | _ => none

/-- A resource declaration begins with this token and the next one. -/
def beginsResource (kind next : TokenKind) : Bool :=
  kind = .symbol .at || kind = .symbol .atAt || (kind = .name && next = .symbol .leftBrace)

/-- What follows a chaining arrow. -/
def chainElement (g : Grammar) : Parser Node := do
  let t ← current
  let next ← second
  if beginsResource t.kind next.kind
      || (t.kind = .keyword .class && next.kind = .symbol .leftBrace) then resourceCall g
  else
    let element ← operand g .value
    if isChainElement element.kind then return element
    else reject (.notAChainElement t.text) t.span

/-- The chain that an element begins, grouping to the left. -/
def chain (g : Grammar) : Node → Parser Node :=
  repeatFrom fun left => do
    match chainArrow? (← current).kind with
    | none => return .inr left
    | some arrow =>
      let sign ← advanceLeaf
      let right ← chainElement g
      return .inl (.mk (left.span.join right.span) [sign] (.relation arrow left right))

/-! ## Statements -/

/-- A statement without the chain it may begin. -/
def unchained (g : Grammar) : Parser Node := do
  let t ← current
  let next ← second
  let braceNext : Bool := next.kind = .symbol .leftBrace
  match t.kind with
  | .keyword .if => ifStatement g
  | .keyword .unless => unlessStatement g
  | .keyword .case => caseStatement g
  | .keyword .include => composition g .include
  | .keyword .require => composition g .require
  | .keyword .contain => composition g .contain
  | .keyword .class => if braceNext then resourceCall g else declaration g .class
  | .keyword .define => declaration g .define
  | .keyword .plan => declaration g .plan
  | .keyword .type => typeDeclaration g
  | .keyword .function => functionDeclaration g
  | .keyword .node => nodeDefinition g
  | k =>
    if beginsResource k next.kind then resourceCall g
    else if k = .reference && braceNext then resourceDefaults g
    else command g Operator.commandRank

/-- A statement with the chain it begins. -/
def statement (g : Grammar) : Parser Node := do
  let first ← unchained g
  if isChainElement first.kind then chain g first else return first

/-- The grammar with a bound on how deep constructs nest. -/
def grammar : Nat → Grammar
  | 0 => Grammar.exhausted
  | n + 1 =>
    let g := grammar n
    { binary := binary g
      command := command g
      unary := unary g .value
      type := typeExpression g
      statement := statement g
      interpolated := interpolated g }

end ManifestTree.Parse
