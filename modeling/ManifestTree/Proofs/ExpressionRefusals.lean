import ManifestTree.Proofs.ExpressionSettling
import ManifestTree.Proofs.ParserRefusals

/-!
# What expressions blame

`Grammar.Blames` is what every construct asks of the grammar for the constructs within it: they
report only what may be reported.  Most constructs pass this on step by step; those that refuse a
token on their own account have got it from the stream.  A selector is asked for apart, as it
depends on its choices whether a default may be reported for the second one.
-/

namespace ManifestTree

open Parse ManifestTree.Parser

/-- Every parser of the grammar reports only what may be reported. -/
structure Grammar.Reports (B : Blame) (g : Grammar) : Prop where
  binary : ∀ maxRank command, Parser.Blames B (g.binary maxRank command)
  command : ∀ maxRank, Parser.Blames B (g.command maxRank)
  unary : Parser.Blames B g.unary
  type : Parser.Blames B g.type
  statement : Parser.Blames B g.statement
  interpolated : ∀ ts e, B.streams (.ofTokens ts) →
    g.interpolated ts = .error (.rejected e) → B.refusals e

/-- So it does, and so does a selector within which the grammar is used. -/
structure Grammar.Blames (B : Blame) (g : Grammar) : Prop extends g.Reports B where
  selector : ∀ subject scope s, B.streams s → s.current.kind = .symbol .question →
    PointsAt B (selector g subject) (fun _ => True) scope s

variable {B : Blame} {g : Grammar}

theorem Grammar.Reports.expression (hg : g.Reports B) : Parser.Blames B g.expression :=
  hg.binary _ _

theorem Grammar.Reports.value (hg : g.Reports B) : Parser.Blames B g.value := hg.binary _ _

namespace Parse

/-! ## Indices and arguments -/

theorem indexList_blames (hg : g.Blames B) : Blames B (indexList g) := by
  refine blames_bind (blames_expectSymbol _) fun _ => ?_
  refine blames_bind (blames_withBraceBlocks _ (commaSeparated_blames hg.expression)) fun _ => ?_
  exact blames_bind (blames_expectSymbol _) fun _ => blames_pure _

theorem argumentList_blames (hg : g.Blames B) : Blames B (argumentList g) := by
  refine blames_bind (blames_expectSymbol _) fun _ => ?_
  refine blames_bind (blames_withBraceBlocks _ (commaList_blames hg.expression)) fun _ => ?_
  exact blames_bind (blames_expectSymbol _) fun _ => blames_pure _

/-! ## Types and parameters -/

theorem typeArgument_blames (hg : g.Blames B) : Blames B (typeArgument g) := by
  refine points_bind points_current fun t ht => ?_
  refine blames_ite hg.type (blames_bind hg.unary fun argument => ?_)
  exact blames_ite (blames_pure _) (points_reject (B.refuses ht nofun))

theorem typeExpression_blames (hg : g.Blames B) : Blames B (typeExpression g) := by
  refine blames_bind (blames_expect _) fun name => blames_bind (blames_atSymbol _) fun _ => ?_
  refine blames_ite (blames_bind blames_advanceLeaf fun _ => ?_) (blames_pure _)
  have hlist : Blames B (commaList (closedBy .rightBracket) (typeArgument g)) :=
    commaList_blames (typeArgument_blames hg)
  refine blames_bind (blames_withBraceBlocks _ hlist) fun _ => ?_
  exact blames_bind (blames_expectSymbol _) fun _ => blames_pure _

theorem parameter_blames (hg : g.Blames B) : Blames B (parameter g) := by
  refine points_bind points_current fun start _ => ?_
  refine blames_optional (typeExpression_blames hg) fun type => ?_
  refine blames_bind (blames_atSymbol _) fun _ => ?_
  refine blames_optional blames_advanceLeaf fun star => ?_
  refine points_bind points_current fun t ht => ?_
  refine blames_ite (points_unexpected ht _) (blames_bind blames_advance fun _ => ?_)
  refine blames_bind (blames_atSymbol _) fun _ => blames_ite ?_ (blames_pure _)
  refine blames_bind blames_advanceLeaf fun _ => ?_
  exact blames_bind (blames_withBraceBlocks _ hg.value) fun _ => blames_pure _

theorem parameterList_blames (hg : g.Blames B) (opens closes : Symbol) :
    Blames B (parameterList g opens closes) := by
  refine blames_bind (blames_expectSymbol _) fun _ => ?_
  refine blames_bind (commaList_blames (parameter_blames hg)) fun _ => ?_
  exact blames_bind (blames_expectSymbol _) fun _ => blames_pure _

/-! ## Bodies and lambdas -/

theorem body_blames (hg : g.Blames B) : Blames B (body g) := by
  refine points_bind points_current fun opener ho => ?_
  refine blames_ite (points_reject (B.refuses ho nofun)) (blames_bind blames_advance fun _ => ?_)
  refine blames_bind (blames_withBraceBlocks _ (untilClosed_blames (fun _ => ?_) _)) fun _ => ?_
  · exact blames_bind hg.statement fun _ => blames_pure _
  · exact blames_bind (blames_expectSymbol _) fun _ => blames_pure _

theorem lambda_blames (hg : g.Blames B) : Blames B (lambda g) := by
  refine blames_bind (blames_atSymbol _) fun _ => ?_
  refine blames_optional (parameterList_blames hg _ _) fun _ => ?_
  exact blames_bind (body_blames hg) fun _ => blames_pure _

theorem optionalLambda_blames (hg : g.Blames B) : Blames B (optionalLambda g) := by
  have hl : Blames B (some <$> lambda g) := blames_map _ (lambda_blames hg)
  refine blames_bind (blames_atSymbol _) fun _ => blames_ite hl ?_
  refine blames_bind (blames_atSymbol _) fun _ => blames_bind blames_read fun _ => ?_
  exact blames_ite hl (blames_pure _)

/-! ## Strings and heredocs -/

theorem toNode_blames (hg : g.Blames B) {t : Token} (ht : B.tokens t) {f : Fragment}
    (hdeep : f.deep ⊆ t.deepFragments) {e : SyntaxError}
    (h : f.toNode g = .error (.rejected e)) : B.refusals e := by
  cases hp : f.piece with
  | interpolation ts =>
    simp only [Fragment.toNode, hp, Fragment.interpolationNode, bind_eq_error] at h
    obtain h | ⟨_, _, h⟩ := h
    · exact hg.interpolated ts e (B.inner ht hdeep hp) h
    · cases h
  | _ => simp [Fragment.toNode, hp] at h

theorem stringNode_blames (hg : g.Blames B) {t : Token} (ht : B.tokens t) {e : SyntaxError}
    (h : t.stringNode g = .error (.rejected e)) : B.refusals e := by
  unfold Token.stringNode at h
  obtain h | ⟨_, _, h⟩ := bind_eq_error.mp h
  · exact toNodes_error (P := fun f => ∀ e, f = .rejected e → B.refusals e)
      (fun f hf _ h e he => toNode_blames hg ht (Token.deep_subset hf) (he ▸ h)) h e rfl
  · cases h

theorem heredocNode_blames (hg : g.Blames B) {t : Token} (ht : B.tokens t) {tag : HeredocTag}
    {b : HeredocBody} (hb : b ∈ t.body?) {e : SyntaxError}
    (h : t.heredocNode g tag b = .error (.rejected e)) : B.refusals e := by
  unfold Token.heredocNode at h
  obtain h | ⟨_, _, h⟩ := bind_eq_error.mp h
  · exact toNodes_error (P := fun f => ∀ e, f = .rejected e → B.refusals e)
      (fun f hf _ h e he => toNode_blames hg ht (Token.body_deep_subset hb hf) (he ▸ h)) h e rfl
  · cases h

/-- A token that makes a node alone blames the tokens within it. -/
theorem literal_blames (hg : g.Blames B) {t : Token} (ht : B.tokens t) {r : Except Failure Node}
    (hr : t.literal? g = some r) {e : SyntaxError} (h : r = .error (.rejected e)) :
    B.refusals e := by
  subst h
  unfold Token.literal? at hr
  split at hr <;> simp only [Option.some.injEq, reduceCtorEq] at hr
  · unfold Token.integerNode at hr
    split at hr <;> cases hr
  · exact stringNode_blames hg ht hr
  · rename_i tag b _ hd
    exact heredocNode_blames hg ht (by simp [Token.body?, hd]) hr

theorem string_blames (hg : g.Blames B) {t : Token} (ht : B.tokens t) :
    Blames B (liftM (t.stringNode g) : Parser Node) :=
  points_lift (fun _ h => stringNode_blames hg ht h) fun _ => trivial

/-! ## Operands -/

theorem functionCall_blames (hg : g.Blames B) (t : Token) : Blames B (functionCall g t) := by
  refine blames_bind (argumentList_blames hg) fun _ => ?_
  exact blames_bind (optionalLambda_blames hg) fun _ => blames_pure _

theorem bareword_blames (hg : g.Blames B) (place : BarewordPlace) :
    Blames B (bareword g place) := by
  refine blames_bind blames_advance fun t => blames_bind (blames_atTouching _) fun callFollows => ?_
  split
  · exact blames_pure _
  · exact blames_ite (functionCall_blames hg t) (blames_pure _)

theorem attributeItem_blames (hg : g.Blames B) : Blames B (attributeItem g) := by
  refine points_bind points_current fun t ht => ?_
  have hrest (name : Node) : Blames B (do
      let arrow ← expectAny [.symbol .fatArrow, .symbol .plusArrow]
      let operator := if arrow.kind = .symbol .fatArrow then AttributeOperator.set else .add
      let value ← g.value
      return Node.mk (t.span.join value.span) [arrow.leaf] (.attribute name operator value)) := by
    refine points_bind (points_expectAny _) fun _ _ => ?_
    exact blames_bind hg.value fun _ => blames_pure _
  refine blames_ite (blames_bind blames_advance fun _ => ?_) (blames_ite ?_ (blames_ite ?_ ?_))
  · exact blames_bind (blames_pure _) hrest
  · exact blames_bind blames_advance fun _ => blames_bind (string_blames hg ht) hrest
  · exact blames_bind blames_advance fun _ => blames_bind (blames_pure _) hrest
  · exact blames_bind (points_unexpected ht _) hrest

theorem attributes_blames (hg : g.Blames B) (closes : TokenKind → Bool) :
    Blames B (attributes g closes) := commaList_blames (attributeItem_blames hg)

theorem collectorQuery_blames (hg : g.Blames B) (closes : Symbol) :
    Blames B (collectorQuery g closes) := by
  have hrest (query : Option Node) : Blames B (do return (query, ← expectSymbol closes)) :=
    blames_bind (blames_expectSymbol _) fun _ => blames_pure _
  refine blames_bind (blames_atSymbol _) fun _ => blames_ite ?_ ?_
  · exact blames_bind (blames_pure _) hrest
  · exact blames_bind (blames_map _ (blames_withBraceBlocks _ hg.expression)) hrest

theorem collector_blames (hg : g.Blames B) (type : Node) : Blames B (collector g type) := by
  refine blames_bind blames_advance fun _ => blames_bind (collectorQuery_blames hg _) fun _ => ?_
  refine blames_bind (blames_atSymbol _) fun _ => blames_bind blames_read fun _ => ?_
  refine blames_ite (blames_bind blames_advanceLeaf fun _ => ?_) (blames_pure _)
  refine blames_bind (attributes_blames hg _) fun _ => ?_
  exact blames_bind (blames_expectSymbol _) fun _ => blames_pure _

theorem referenceOperand_blames (hg : g.Blames B) : Blames B (referenceOperand g) := by
  refine blames_bind blames_advance fun _ => blames_bind (blames_atTouching _) fun _ => ?_
  refine blames_ite (blames_bind (indexList_blames hg) fun _ => blames_pure _) ?_
  refine blames_bind (blames_atSymbol _) fun _ => blames_bind (blames_atSymbol _) fun _ => ?_
  exact blames_ite (collector_blames hg _) (blames_pure _)

theorem array_blames (hg : g.Blames B) : Blames B (array g) := by
  refine blames_bind blames_advance fun _ => ?_
  refine blames_bind (blames_withBraceBlocks _ (commaList_blames hg.value)) fun _ => ?_
  exact blames_bind (blames_expectSymbol _) fun _ => blames_pure _

theorem methodCall_blames (hg : g.Blames B) (receiver : Node) :
    Blames B (methodCall g receiver) := by
  refine blames_bind blames_advanceLeaf fun _ => points_bind points_current fun t ht => ?_
  refine blames_ite (points_unexpected ht _) (blames_bind blames_advance fun _ => ?_)
  refine blames_bind (blames_atTouching _) fun _ => ?_
  refine blames_optional (argumentList_blames hg) fun _ => ?_
  exact blames_bind (optionalLambda_blames hg) fun _ => blames_pure _

theorem selectorItem_blames (hB : B.Lenient) (hg : g.Reports B) (seen : Bool) :
    Blames B (selectorItem g seen) := by
  refine points_bind points_current fun t ht => blames_bind hg.value fun _ => ?_
  refine blames_ite (points_reject (hB _ ht)) (blames_bind (blames_expectSymbol _) fun _ => ?_)
  exact blames_bind hg.value fun _ => blames_pure _

/-- Where a token may be reported for a second default, it may be within a selector. -/
theorem selector_blames (hB : B.Lenient) (hg : g.Reports B) (subject : Node) :
    Blames B (selector g subject) := by
  refine blames_bind blames_advanceLeaf fun _ => blames_bind (blames_expectSymbol _) fun _ => ?_
  have hlist : Blames B (commaListWith (closedBy .rightBrace) (selectorItem g) false) :=
    commaListWith_blames (selectorItem_blames hB hg) false
  refine blames_bind (blames_withBraceBlocks _ hlist) fun _ => ?_
  exact blames_bind (blames_expectSymbol _) fun _ => blames_pure _

theorem indexAccess_blames (hg : g.Blames B) (target : Node) : Blames B (indexAccess g target) :=
  blames_bind (indexList_blames hg) fun _ => blames_pure _

theorem postfixTail_blames (hg : g.Blames B) (operand : Node) :
    Blames B (postfixTail g operand) := by
  refine repeatFrom_blames (fun operand => ?_) operand
  refine blames_bind (blames_atTouching _) fun _ => ?_
  refine blames_ite (blames_map _ (indexAccess_blames hg operand)) ?_
  refine blames_bind (blames_atSymbol _) fun _ => ?_
  refine blames_ite (blames_map _ (methodCall_blames hg operand)) ?_
  refine blames_atSymbol_ite (fun scope s hs hk => ?_) (blames_pure _)
  exact (hg.selector operand scope s hs hk).map _

theorem hashKey_blames (hg : g.Blames B) : Blames B (hashKey g) := by
  refine points_bind points_current fun t _ => points_bind points_second fun _ _ => ?_
  refine blames_ite (blames_bind blames_advance fun _ => blames_pure _) ?_
  refine blames_ite ?_ hg.value
  exact blames_bind (bareword_blames hg _) fun _ => postfixTail_blames hg _

theorem hashEntry_blames (hg : g.Blames B) : Blames B (hashEntry g) := by
  refine blames_bind (hashKey_blames hg) fun _ => blames_bind (blames_expectSymbol _) fun _ => ?_
  exact blames_bind hg.value fun _ => blames_pure _

theorem hash_blames (hg : g.Blames B) : Blames B (hash g) := by
  refine blames_bind blames_advance fun _ => ?_
  have hlist : Blames B (commaList (closedBy .rightBrace) (hashEntry g)) :=
    commaList_blames (hashEntry_blames hg)
  refine blames_bind (blames_withBraceBlocks _ hlist) fun _ => ?_
  exact blames_bind (blames_expectSymbol _) fun _ => blames_pure _

theorem parenthesized_blames (hg : g.Blames B) : Blames B (parenthesized g) := by
  refine blames_bind blames_advance fun _ => ?_
  refine blames_bind (blames_withBraceBlocks _ hg.expression) fun _ => ?_
  exact blames_bind (blames_expectSymbol _) fun _ => blames_pure _

theorem primary_blames (hg : g.Blames B) (place : BarewordPlace) : Blames B (primary g place) := by
  refine points_bind points_current fun t ht => ?_
  split
  · rename_i r hr
    refine blames_bind blames_advance fun _ => ?_
    exact points_lift (fun _ h => literal_blames hg ht hr h) fun _ => trivial
  · split
    · exact bareword_blames hg place
    · exact referenceOperand_blames hg
    · exact array_blames hg
    · exact hash_blames hg
    · exact parenthesized_blames hg
    · exact points_unexpected ht _

theorem operand_blames (hg : g.Blames B) (place : BarewordPlace) : Blames B (operand g place) :=
  blames_bind (primary_blames hg place) fun _ => postfixTail_blames hg _

/-! ## Operators -/

theorem unary_blames (hg : g.Blames B) (place : BarewordPlace) : Blames B (unary g place) := by
  refine points_bind points_current fun t _ => ?_
  split
  · exact operand_blames hg place
  · refine blames_bind blames_advance fun _ => ?_
    exact blames_bind hg.unary fun _ => blames_pure _

theorem climb_blames (hg : g.Blames B) (maxRank : Nat) (command : Bool) (left : Node) :
    Blames B (climb g maxRank command left) := by
  refine repeatFrom_blames (fun left => ?_) left
  refine points_bind points_current fun t ht => ?_
  split
  · exact blames_pure _
  · refine blames_ite (blames_pure _) (blames_bind blames_advance fun _ => ?_)
    refine blames_ite (blames_ite (points_reject (B.refuses ht nofun)) ?_) ?_
    · exact blames_bind (hg.binary _ _) fun _ => blames_pure _
    · exact blames_bind (hg.binary _ _) fun _ => blames_pure _

theorem binaryIn_blames (hg : g.Blames B) (place : BarewordPlace) (maxRank : Nat)
    (command : Bool) : Blames B (binaryIn g place maxRank command) :=
  blames_bind (unary_blames hg place) fun _ => climb_blames hg _ _ _

theorem climbCommand_blames (hg : g.Blames B) (maxRank : Nat) (left : Node) :
    Blames B (climbCommand g maxRank left) := by
  refine repeatFrom_blames (fun left => ?_) left
  refine points_bind points_current fun t _ => ?_
  split
  · exact blames_pure _
  · refine blames_ite (blames_pure _) (blames_bind blames_advance fun _ => ?_)
    exact blames_bind (hg.command _) fun _ => blames_pure _

theorem command_blames (hg : g.Blames B) (maxRank : Nat) : Blames B (command g maxRank) :=
  blames_bind (binaryIn_blames hg _ _ _) fun _ => climbCommand_blames hg _ _

/-! ## Interpolations -/

theorem interpolatedExpression_blames (hg : g.Blames B) :
    Blames B (interpolatedExpression g) := by
  refine points_bind points_current fun t ht => points_bind points_second fun _ _ => ?_
  have hrest (expression : Node) : Blames B (do
      let left ← current
      if left.kind = .endOfInput then return expression
      else unexpected left .closingBrace) := by
    refine points_bind points_current fun left hleft => ?_
    exact blames_ite (blames_pure _) (points_unexpected hleft _)
  refine blames_ite (points_reject (B.refuses ht nofun)) (blames_ite ?_ ?_)
  · refine blames_bind blames_advance fun _ => blames_bind ?_ hrest
    exact blames_bind (postfixTail_blames hg _) fun _ => climb_blames hg _ _ _
  · exact blames_bind (binaryIn_blames hg _ _ _) hrest

theorem interpolated_blames (hg : g.Blames B) (ts : List Token) (e : SyntaxError)
    (hts : B.streams (.ofTokens ts)) (h : interpolated g ts = .error (.rejected e)) :
    B.refusals e := (interpolatedExpression_blames hg).runOn hts h

end Parse

end ManifestTree
