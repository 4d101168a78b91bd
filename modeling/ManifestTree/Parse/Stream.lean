import ManifestTree.Operator
import ManifestTree.Problem
import ManifestTree.Tree.Kind

/-!
# Streams of tokens

A parser reads tokens from a `TokenStream` and answers a value or a failure.  The end of input is
never consumed.  Every loop goes through `Parser.iterate`, whose bound is the number of tokens
that are left: each round of a loop consumes one.
-/

namespace ManifestTree

/-- The tokens that are left, the end of input after them, and where the token consumed last
ended. -/
structure TokenStream where
  /-- The tokens before the end of input. -/
  rest : List Token
  /-- The end of input. -/
  last : Token
  /-- Where the token consumed last ended, if there was one. -/
  previousStop : Option Int

namespace TokenStream

/-- The stream of some tokens, the last of which is the end of input. -/
def ofTokens (tokens : List Token) : TokenStream :=
  ⟨tokens.dropLast, tokens.getLast?.getD default, none⟩

/-- The next token. -/
def current (s : TokenStream) : Token := s.rest.headD s.last

/-- The token after the next one. -/
def second (s : TokenStream) : Token := s.rest.tail.headD s.last

/-- The stream after the next token. -/
def tail (s : TokenStream) : TokenStream :=
  match s.rest with
  | [] => s
  | t :: ts => { s with rest := ts, previousStop := some t.span.stop }

/-- The next token begins where the last one ended. -/
def touches (s : TokenStream) : Bool := s.previousStop = some s.current.span.start

end TokenStream

/-- What the constructs around a place allow there. -/
structure Scope where
  /-- A brace may open a block without parameters.  It may not where it opens a statement body,
  as after a condition, but it may again within any brackets. -/
  braceBlocks : Bool
deriving DecidableEq, Repr

/-- Reads tokens in a scope. -/
abbrev Parser := ReaderT Scope (StateT TokenStream (Except Failure))

namespace Parser

variable {α β σ : Type}

/-- Gives up. -/
def fail (f : Failure) : Parser α := throw f

/-- Refuses the source. -/
def reject (problem : Problem) (span : Span) : Parser α := fail (.rejected ⟨problem, span⟩)

/-- The next token. -/
def current : Parser Token := return (← get).current

/-- The token after the next one. -/
def second : Parser Token := return (← get).second

/-- Consumes the next token. -/
def advance : Parser Token := do
  let s ← get
  set s.tail
  return s.current

/-- Consumes the next token as a sign of the node that is being read. -/
def advanceLeaf : Parser Leaf := return (← advance).leaf

/-- The next token is of a kind. -/
def nextIs (kind : TokenKind) : Parser Bool := return (← get).current.kind = kind

/-- The next token is a symbol. -/
def atSymbol (s : Symbol) : Parser Bool := nextIs (.symbol s)

/-- The next token begins where the last one ended. -/
def touches : Parser Bool := return (← get).touches

/-- The next token is an opening bracket that touches the last token. -/
def atTouching (s : Symbol) : Parser Bool := do return (← atSymbol s) && (← touches)

/-- Reads with brace blocks allowed or forbidden. -/
def withBraceBlocks (allowed : Bool) (p : Parser α) : Parser α :=
  withReader (fun _ => ⟨allowed⟩) p

/-- The failure of finding a token where one of some kinds was due. -/
def expectedError (kinds : List TokenKind) (t : Token) : SyntaxError :=
  ⟨.expected kinds (if t.kind = .endOfInput then none else some t.text), t.span⟩

/-- Consumes a token of one of some kinds. -/
def expectAny (kinds : List TokenKind) : Parser Token := do
  let t ← current
  if kinds.contains t.kind then advance else fail (.rejected (expectedError kinds t))

/-- Consumes a token of a kind. -/
def expect (kind : TokenKind) : Parser Token := expectAny [kind]

def expectSymbol (s : Symbol) : Parser Token := expect (.symbol s)

/-- The failure of finding a token where something else was wanted. -/
def unexpectedError (t : Token) (wanted : Wanted) : SyntaxError :=
  let problem : Problem :=
    if t.kind = .endOfInput then .unexpectedEnd wanted
    else if Operator.continues t.kind then .unexpectedOperator t.text wanted
    else .unexpectedToken t.text wanted
  ⟨problem, t.span⟩

/-- Refuses a token where something else was wanted. -/
def unexpected (t : Token) (wanted : Wanted) : Parser α :=
  fail (.rejected (unexpectedError t wanted))

/-- Repeats a step from state to state until it answers a result. -/
def iterate (step : σ → Parser (σ ⊕ α)) : (fuel : Nat) → σ → Parser α
  | 0, _ => fail .exhausted
  | fuel + 1, s => do
    match ← step s with
    | .inl next => iterate step fuel next
    | .inr result => return result

/-- Repeats a step that consumes a token each time it does not answer a result. -/
def repeatFrom (step : σ → Parser (σ ⊕ α)) (s : σ) : Parser α := do
  iterate step ((← get).rest.length + 1) s

/-- Reads items up to a token that closes them, with a state from item to item. -/
def untilClosed (closes : TokenKind → Bool) (item : σ → Parser (α × σ)) (s : σ) :
    Parser (List α × σ) :=
  repeatFrom (fun (items, s) => do
    if closes (← current).kind then return .inr (items.reverse, s)
    else
      let (a, s) ← item s
      return .inl (a :: items, s)) ([], s)

/-- Reads items with commas between them, and perhaps one after the last, up to a token that
closes them.  A missing comma ends the items too.  Answers the items and the commas. -/
def commaListWith (closes : TokenKind → Bool) (item : σ → Parser (α × σ)) (s : σ) :
    Parser (List α × List Leaf) :=
  repeatFrom (fun (items, commas, s) => do
    if closes (← current).kind then return .inr (items.reverse, commas.reverse)
    else
      let (a, s) ← item s
      if ← atSymbol .comma then
        return .inl (a :: items, (← advanceLeaf) :: commas, s)
      else return .inr ((a :: items).reverse, commas.reverse)) ([], [], s)

/-- Reads items with commas between them, and perhaps one after the last. -/
def commaList (closes : TokenKind → Bool) (item : Parser α) : Parser (List α × List Leaf) :=
  commaListWith closes (fun _ : Unit => return (← item, ())) ()

/-- Reads one or more items with commas between them. -/
def commaSeparated (item : Parser α) : Parser (List α × List Leaf) := do
  let first ← item
  repeatFrom (fun (items, commas) => do
    if ← atSymbol .comma then
      let comma ← advanceLeaf
      return .inl ((← item) :: items, comma :: commas)
    else return .inr (items.reverse, commas.reverse)) ([first], [])

/-- Runs a parser on a stream of its own. -/
def runOn (p : Parser α) (s : TokenStream) : Except Failure α := do
  let (a, _) ← (p.run ⟨true⟩).run s
  return a

end Parser

/-- The parsers that constructs use for the constructs within them. -/
structure Grammar where
  /-- Expressions whose operators have at most a rank; with the flag set, `and` and `or` end
  them. -/
  binary : (maxRank : Nat) → (command : Bool) → Parser Node
  /-- Statement expressions joined by command operators of at most a rank. -/
  command : (maxRank : Nat) → Parser Node
  /-- Operands with the operators before them. -/
  unary : Parser Node
  /-- Types. -/
  type : Parser Node
  /-- Statements. -/
  statement : Parser Node
  /-- The inside of an interpolation, given its tokens and the end of input after them. -/
  interpolated : List Token → Except Failure Node

/-- The grammar that accepts nothing because its bound on nesting is zero. -/
def Grammar.exhausted : Grammar where
  binary _ _ := Parser.fail .exhausted
  command _ := Parser.fail .exhausted
  unary := Parser.fail .exhausted
  type := Parser.fail .exhausted
  statement := Parser.fail .exhausted
  interpolated _ := .error .exhausted

namespace Grammar

/-- An expression up to and including assignment. -/
def expression (g : Grammar) : Parser Node := g.binary Operator.expressionRank false

/-- An expression that may not be a bare assignment. -/
def value (g : Grammar) : Parser Node := g.binary Operator.valueRank false

end Grammar

end ManifestTree
