import ManifestTree.Parse.Statement
import ManifestTree.Token.Scan

/-!
# Manifests

`Node.parse` turns a source into the tree of a manifest, or says why there is none.  The whole
source is scanned before any of it is parsed, so a problem of scanning comes before one of parsing.
-/

namespace ManifestTree

def Token.commentNode (t : Token) : Node := Node.plain t.span (.comment t.text)

namespace Parse

/-- The statements up to the end of input. -/
def statements (g : Grammar) : Parser (List Node) := do
  let (statements, _) ←
    Parser.untilClosed (· = .endOfInput) (fun _ : Unit => return (← statement g, ())) ()
  return statements

/-- Parses tokens that end with an end of input.  Every construct consumes a token before it asks
for another within it, so the number of tokens bounds how deep constructs nest. -/
def tokens (ts : List Token) : Except Failure (List Node) :=
  Parser.runOn (statements (grammar (Token.countAll ts + 1))) (TokenStream.ofTokens ts)

end Parse

/-- The tree of a manifest.  Its span is the whole source, and its comments are listed apart from
its statements. -/
def Node.parse (source : Text) : Except Failure Node := do
  let (tokens, comments) ← Token.scan source
  let statements ← Parse.tokens tokens
  return Node.plain ⟨0, source.length, 1, 1⟩
    (.manifest statements (comments.map Token.commentNode))

end ManifestTree
