import ManifestTree.Parse.Leaves

/-!
# Expressions

Operands, the forms that follow them, and operators by rank.  Each construct is a function of the
grammar, which it asks for the constructs within it only after it has consumed a token of its own.
-/

namespace ManifestTree.Parse

open ManifestTree.Parser

/-! ## Indices and arguments -/

/-- What stands between brackets: the signs, the items, and the closing bracket. -/
structure Bracketed where
  /-- The brackets and commas. -/
  leaves : List Leaf
  /-- The items. -/
  items : List Node
  /-- The closing bracket. -/
  close : Token

/-- The kind is the symbol. -/
def closedBy (s : Symbol) (k : TokenKind) : Bool := k = .symbol s

/-- One or more indices between square brackets. -/
def indexList (g : Grammar) : Parser Bracketed := do
  let opener ← expectSymbol .leftBracket
  let (items, commas) ← withBraceBlocks true (commaSeparated g.expression)
  let close ← expectSymbol .rightBracket
  return ⟨opener.leaf :: commas ++ [close.leaf], items, close⟩

/-- Arguments between parentheses. -/
def argumentList (g : Grammar) : Parser Bracketed := do
  let opener ← expectSymbol .leftParen
  let (items, commas) ← withBraceBlocks true (commaList (closedBy .rightParen) g.expression)
  let close ← expectSymbol .rightParen
  return ⟨opener.leaf :: commas ++ [close.leaf], items, close⟩

/-! ## Types and parameters -/

/-- The kinds of type arguments besides types. -/
def isTypeArgument (k : Kind) : Bool := Place.typeArgument.kinds.contains k

/-- An argument of a type: a type again, or a literal. -/
def typeArgument (g : Grammar) : Parser Node := do
  let t ← current
  if t.kind = .reference then g.type
  else
    let argument ← g.unary
    if argument.kind ≠ .type && isTypeArgument argument.kind then return argument
    else reject (.illegalTypeArgument t.text) t.span

/-- A type: a reference name, and perhaps arguments between brackets that need not touch it. -/
def typeExpression (g : Grammar) : Parser Node := do
  let name := (← expect .reference).referenceIdentifier
  if ← atSymbol .leftBracket then
    let opener ← advanceLeaf
    let (arguments, commas) ←
      withBraceBlocks true (commaList (closedBy .rightBracket) (typeArgument g))
    let close ← expectSymbol .rightBracket
    return .mk (name.span.join close.span) (opener :: commas ++ [close.leaf])
      (.type name (some arguments))
  else return Node.plain name.span (.type name none)

/-- A parameter: perhaps a type, perhaps a star, a variable, and perhaps a value. -/
def parameter (g : Grammar) : Parser Node := do
  let start ← current
  let type ← if start.kind = .reference then some <$> typeExpression g else pure none
  let star ← if ← atSymbol .times then some <$> advanceLeaf else pure none
  let t ← current
  if t.kind ≠ .variable then unexpected t .parameterVariable
  else
    let name := (← advance).variableNode
    let leaves := star.toList
    if ← atSymbol .equals then
      let equals ← advanceLeaf
      let value ← withBraceBlocks true g.value
      return .mk (start.span.join value.span) (leaves ++ [equals])
        (.parameter type star.isSome name (some value))
    else
      return .mk (start.span.join name.span) leaves (.parameter type star.isSome name none)

/-- Parameters between two symbols. -/
def parameterList (g : Grammar) (opens closes : Symbol) : Parser Node := do
  let opener ← expectSymbol opens
  let (parameters, commas) ← commaList (closedBy closes) (parameter g)
  let close ← expectSymbol closes
  return .mk (opener.span.join close.span) (opener.leaf :: commas ++ [close.leaf])
    (.parameterList parameters)

/-! ## Bodies and lambdas -/

/-- A statement body between braces. -/
def body (g : Grammar) : Parser Node := do
  let opener ← current
  if opener.kind ≠ .symbol .leftBrace then reject (.missingBody opener.text) opener.span
  else
    let _ ← advance
    let ends (k : TokenKind) : Bool := k = .symbol .rightBrace || k = .endOfInput
    let (statements, _) ← withBraceBlocks true
      (untilClosed ends (fun _ : Unit => return (← g.statement, ())) ())
    let close ← expectSymbol .rightBrace
    return .mk (opener.span.join close.span) [opener.leaf, close.leaf] (.body statements)

/-- A block: perhaps parameters between pipes, and a body. -/
def lambda (g : Grammar) : Parser Node := do
  let parameters ← if ← atSymbol .pipe then some <$> parameterList g .pipe .pipe else pure none
  let block ← body g
  let start := (parameters.map Node.span).getD block.span
  return Node.plain (start.join block.span) (.lambda parameters block)

/-- A block after a call, if one follows.  One without parameters must be allowed here. -/
def optionalLambda (g : Grammar) : Parser (Option Node) := do
  if ← atSymbol .pipe then some <$> lambda g
  else if (← atSymbol .leftBrace) && (← read).braceBlocks then some <$> lambda g
  else return none

/-! ## Operands -/

/-- The call of a function whose name is consumed. -/
def functionCall (g : Grammar) (nameToken : Token) : Parser Node := do
  let name := nameToken.identifier
  let arguments ← argumentList g
  let block ← optionalLambda g
  let stop := (block.map Node.span).getD arguments.close.span
  return .mk (name.span.join stop) arguments.leaves (.functionCall name arguments.items block)

/-- A bare name: a call if a parenthesis touches it, a name, or a word. -/
def bareword (g : Grammar) (place : BarewordPlace) : Parser Node := do
  let t ← advance
  let callFollows ← atTouching .leftParen
  match place.reading (t.text.contains ':') callFollows with
  | .word => return t.bareword
  | .naming => if callFollows then functionCall g t else return t.identifier

/-- One attribute: a name, an arrow and a value. -/
def attributeItem (g : Grammar) : Parser Node := do
  let t ← current
  let name ←
    if t.kind = .name || t.kind.isKeyword then
      let _ ← advance
      pure (t.named .attributeName)
    else if t.kind = .string then
      let _ ← advance
      liftM (t.stringNode g)
    else if t.kind = .symbol .times then
      let _ ← advance
      pure t.leaf.toNode
    else unexpected t .attributeName
  let arrow ← expectAny [.symbol .fatArrow, .symbol .plusArrow]
  let operator := if arrow.kind = .symbol .fatArrow then AttributeOperator.set else .add
  let value ← g.value
  return .mk (t.span.join value.span) [arrow.leaf] (.attribute name operator value)

/-- Attributes with commas between them, up to a token that closes them. -/
def attributes (g : Grammar) (closes : TokenKind → Bool) : Parser (List Node × List Leaf) :=
  commaList closes (attributeItem g)

/-- The query of a collector and the sign that closes it. -/
def collectorQuery (g : Grammar) (closes : Symbol) : Parser (Option Node × Token) := do
  let query ←
    if ← atSymbol closes then pure none
    else some <$> withBraceBlocks true g.expression
  return (query, ← expectSymbol closes)

/-- A collector of resources whose type is consumed: a query between collecting signs, and perhaps
attributes between braces where a brace may open a block. -/
def collector (g : Grammar) (type : Node) : Parser Node := do
  let opener ← advance
  let exported : Bool := opener.kind = .symbol .leftExport
  let (query, closer) ← collectorQuery g (if exported then .rightExport else .rightCollect)
  let leaves := [opener.leaf, closer.leaf]
  if (← atSymbol .leftBrace) && (← read).braceBlocks then
    let open_ ← advanceLeaf
    let (items, commas) ← attributes g (closedBy .rightBrace)
    let close ← expectSymbol .rightBrace
    return .mk (type.span.join close.span) (leaves ++ open_ :: commas ++ [close.leaf])
      (.collector exported type query (some items))
  else
    return .mk (type.span.join closer.span) leaves (.collector exported type query none)

/-- A capitalised name: a reference with indices that touch it, a collector, or the name. -/
def referenceOperand (g : Grammar) : Parser Node := do
  let name := (← advance).referenceIdentifier
  if ← atTouching .leftBracket then
    let indices ← indexList g
    return .mk (name.span.join indices.close.span) indices.leaves (.reference name indices.items)
  else if (← atSymbol .leftCollect) || (← atSymbol .leftExport) then collector g name
  else return name

def array (g : Grammar) : Parser Node := do
  let opener ← advance
  let (items, commas) ← withBraceBlocks true (commaList (closedBy .rightBracket) g.value)
  let close ← expectSymbol .rightBracket
  return .mk (opener.span.join close.span) (opener.leaf :: commas ++ [close.leaf]) (.array items)

/-- A method call on a receiver, after its dot: a name, perhaps arguments that touch it, and
perhaps a block. -/
def methodCall (g : Grammar) (receiver : Node) : Parser Node := do
  let dot ← advanceLeaf
  let t ← current
  if t.kind ≠ .name && !t.kind.isKeyword then unexpected t .methodName
  else
    let name := (← advance).named .methodName
    let arguments ← if ← atTouching .leftParen then some <$> argumentList g else pure none
    let block ← optionalLambda g
    let argumentStop := (arguments.map fun a => a.close.span).getD name.span
    let stop := (block.map Node.span).getD argumentStop
    let leaves := (arguments.map Bracketed.leaves).getD []
    return .mk (receiver.span.join stop) (dot :: leaves)
      (.methodCall receiver name (arguments.map Bracketed.items) block)

/-- One choice of a selector.  Whether a default was seen is passed on; there may be one. -/
def selectorItem (g : Grammar) (seen : Bool) : Parser (Node × Bool) := do
  let t ← current
  let key ← g.value
  let isDefault : Bool := key.kind = .default
  if isDefault && seen then reject (.duplicateDefault .selector) t.span
  else
    let arrow ← expectSymbol .fatArrow
    let value ← g.value
    return (.mk (key.span.join value.span) [arrow.leaf] (.selectorItem key value),
      seen || isDefault)

/-- A selector on a subject, after its question mark. -/
def selector (g : Grammar) (subject : Node) : Parser Node := do
  let question ← advanceLeaf
  let opener ← expectSymbol .leftBrace
  let (items, commas) ←
    withBraceBlocks true (commaListWith (closedBy .rightBrace) (selectorItem g) false)
  let close ← expectSymbol .rightBrace
  return .mk (subject.span.join close.span) (question :: opener.leaf :: commas ++ [close.leaf])
    (.selector subject items)

/-- Index access on a target that the bracket touches. -/
def indexAccess (g : Grammar) (target : Node) : Parser Node := do
  let indices ← indexList g
  return .mk (target.span.join indices.close.span) indices.leaves
    (.indexAccess target indices.items)

/-- Index access, method calls and selectors after an operand, from left to right. -/
def postfixTail (g : Grammar) : Node → Parser Node :=
  repeatFrom fun operand => do
    if ← atTouching .leftBracket then .inl <$> indexAccess g operand
    else if ← atSymbol .dot then .inl <$> methodCall g operand
    else if ← atSymbol .question then .inl <$> selector g operand
    else return .inr operand

/-- The key of a hash entry.  A keyword before the arrow is a word. -/
def hashKey (g : Grammar) : Parser Node := do
  let t ← current
  if t.kind.isPlainKeyword && (← second).kind = .symbol .fatArrow then
    return (← advance).bareword
  else if t.kind = .name then bareword g .hashKey >>= postfixTail g
  else g.value

def hashEntry (g : Grammar) : Parser Node := do
  let key ← hashKey g
  let arrow ← expectSymbol .fatArrow
  let value ← g.value
  return .mk (key.span.join value.span) [arrow.leaf] (.hashEntry key value)

def hash (g : Grammar) : Parser Node := do
  let opener ← advance
  let (entries, commas) ← withBraceBlocks true (commaList (closedBy .rightBrace) (hashEntry g))
  let close ← expectSymbol .rightBrace
  return .mk (opener.span.join close.span) (opener.leaf :: commas ++ [close.leaf]) (.hash entries)

/-- An expression between parentheses. -/
def parenthesized (g : Grammar) : Parser Node := do
  let opener ← advance
  let inner ← withBraceBlocks true g.expression
  let close ← expectSymbol .rightParen
  return .mk (opener.span.join close.span) [opener.leaf, close.leaf] (.parenthesized inner)

/-- An operand without what may follow it. -/
def primary (g : Grammar) (place : BarewordPlace) : Parser Node := do
  let t ← current
  match t.literal? g with
  | some node =>
    let _ ← advance
    liftM node
  | none =>
    match t.kind with
    | .name => bareword g place
    | .reference => referenceOperand g
    | .symbol .leftBracket => array g
    | .symbol .leftBrace => hash g
    | .symbol .leftParen => parenthesized g
    | _ => unexpected t .expression

def operand (g : Grammar) (place : BarewordPlace) : Parser Node :=
  primary g place >>= postfixTail g

/-! ## Operators -/

/-- The operator that an operand can have before it. -/
def unaryOperator (o : Operator) : UnaryOperator :=
  if o.symbol = "!" then .not else if o.symbol = "-" then .negate else .splat

/-- An operand with the operators before it, which bind tighter than those between operands. -/
def unary (g : Grammar) (place : BarewordPlace) : Parser Node := do
  let t ← current
  match Operator.unary? t.kind with
  | none => operand g place
  | some o =>
    let _ ← advance
    let inner ← g.unary
    return .mk (t.span.join inner.span) [t.leaf] (.unary (unaryOperator o) inner)

/-- What may stand on the left of an assignment. -/
def isAssignable (k : Kind) : Bool := k = .variableName || k = .array

/-- Extends an expression by the operators that follow, as long as their ranks are at most
`maxRank`.  With the flag set, `and` and `or` end it. -/
def climb (g : Grammar) (maxRank : Nat) (command : Bool) : Node → Parser Node :=
  repeatFrom fun left => do
    let t ← current
    match Operator.binary? t.kind with
    | none => return .inr left
    | some o =>
      if maxRank < o.rank || (command && (Operator.command? t.kind).isSome) then
        return .inr left
      else
        let _ ← advance
        if t.kind = .symbol .equals then
          if !isAssignable left.kind then reject .assignedTarget t.span
          else
            let value ← g.binary o.rightRank command
            return .inl (.mk (left.span.join value.span) [t.leaf] (.assignment left value))
        else
          let right ← g.binary o.rightRank command
          return .inl (.mk (left.span.join right.span) [t.leaf]
            (.binary (Text.ofString o.symbol) left right))

/-- An expression whose first bare word is read in a place. -/
def binaryIn (g : Grammar) (place : BarewordPlace) (maxRank : Nat) (command : Bool) :
    Parser Node :=
  unary g place >>= climb g maxRank command

/-- An expression whose operators have at most a rank. -/
def binary (g : Grammar) (maxRank : Nat) (command : Bool) : Parser Node :=
  binaryIn g .value maxRank command

def commandOperator (o : Operator) : CommandOperator := if o.symbol = "and" then .and else .or

/-- Extends a statement expression by the command operators that follow. -/
def climbCommand (g : Grammar) (maxRank : Nat) : Node → Parser Node :=
  repeatFrom fun left => do
    let t ← current
    match Operator.command? t.kind with
    | none => return .inr left
    | some o =>
      if maxRank < o.rank then return .inr left
      else
        let _ ← advance
        let right ← g.command o.rightRank
        return .inl (.mk (left.span.join right.span) [t.leaf]
          (.commandBinary (commandOperator o) left right))

/-- Expressions joined by command operators of at most a rank. -/
def command (g : Grammar) (maxRank : Nat) : Parser Node :=
  binary g Operator.expressionRank true >>= climbCommand g maxRank

/-! ## Interpolations -/

/-- The inside of an interpolation.  A name or keyword in front that begins no call is a variable,
keywords that stand for values apart. -/
def interpolatedExpression (g : Grammar) : Parser Node := do
  let t ← current
  let next ← second
  if t.kind = .endOfInput then reject .emptyInterpolation t.span
  else
    let calls : Bool := next.kind = .symbol .leftParen && next.span.start = t.span.stop
    let expression ←
      if (t.kind = .name || t.kind.isPlainKeyword) && !calls then
        let _ ← advance
        postfixTail g t.variableNode >>= climb g Operator.expressionRank false
      else binary g Operator.expressionRank false
    let left ← current
    if left.kind = .endOfInput then return expression
    else unexpected left .closingBrace

/-- Parses the tokens of an interpolation. -/
def interpolated (g : Grammar) (tokens : List Token) : Except Failure Node :=
  runOn (interpolatedExpression g) (TokenStream.ofTokens tokens)

end ManifestTree.Parse
