import ManifestTree.Parse.Manifest
import ManifestTree.Proofs.ExpressionRefusals

/-!
# What statements blame

Statements report only what may be reported, and with them all parsers of the grammar, whatever its
bound on nesting is, if selectors and case statements do.  Where a token may be reported for a
second default wherever it stands, these do as well.  So a list of tokens that does not parse is
refused at one of its tokens.
-/

namespace ManifestTree

open ManifestTree.Parser

variable {B : Blame} {g : Grammar}

namespace Parse

/-! ## Conditionals -/

theorem condition_blames (hg : g.Blames B) : Blames B (condition g) :=
  blames_withBraceBlocks _ (command_blames hg _)

theorem optionalElse_blames (hg : g.Blames B) : Blames B (optionalElse g) := by
  refine blames_bind (blames_nextIs _) fun _ => blames_ite ?_ (blames_pure _)
  refine blames_bind blames_advance fun _ => ?_
  exact blames_bind (body_blames hg) fun _ => blames_pure _

theorem elsif_blames (hg : g.Blames B) : Blames B (elsif g) := by
  refine blames_bind blames_advance fun _ => blames_bind (condition_blames hg) fun _ => ?_
  exact blames_bind (body_blames hg) fun _ => blames_pure _

theorem ifStatement_blames (hg : g.Blames B) : Blames B (ifStatement g) := by
  refine blames_bind blames_advance fun _ => blames_bind (condition_blames hg) fun _ => ?_
  refine blames_bind (body_blames hg) fun _ => ?_
  refine blames_bind (untilClosed_blames (fun _ => ?_) _) fun _ => ?_
  · exact blames_bind (elsif_blames hg) fun _ => blames_pure _
  · exact blames_bind (optionalElse_blames hg) fun _ => blames_pure _

theorem unlessStatement_blames (hg : g.Blames B) : Blames B (unlessStatement g) := by
  refine blames_bind blames_advance fun _ => blames_bind (condition_blames hg) fun _ => ?_
  refine blames_bind (body_blames hg) fun _ => ?_
  exact blames_bind (optionalElse_blames hg) fun _ => blames_pure _

theorem caseOption_blames (hB : B.Lenient) (hg : g.Blames B) (seen : Bool) (o : CaseOptions) :
    Blames B (caseOption g seen o) := by
  refine points_bind points_current fun t ht => blames_bind hg.value fun _ => ?_
  exact blames_ite (blames_ite (points_reject (hB _ ht)) (blames_pure _)) (blames_pure _)

theorem caseOptions_blames (hB : B.Lenient) (hg : g.Blames B) (seen : Bool) :
    Blames B (caseOptions g seen) := by
  refine blames_bind (caseOption_blames hB hg _ _) fun first =>
    repeatFrom_blames (fun o => ?_) first
  refine blames_bind (blames_atSymbol _) fun _ => blames_ite ?_ (blames_pure _)
  exact blames_bind blames_advanceLeaf fun _ => blames_map _ (caseOption_blames hB hg _ _)

theorem caseArm_blames (hB : B.Lenient) (hg : g.Blames B) (seen : Bool) :
    Blames B (caseArm g seen) := by
  refine points_bind points_current fun first _ => ?_
  refine blames_bind (caseOptions_blames hB hg _) fun _ =>
    blames_bind (blames_expectSymbol _) fun _ => ?_
  exact blames_bind (body_blames hg) fun _ => blames_pure _

/-- Where a token may be reported for a second default, it may be within a case statement. -/
theorem caseStatement_blames (hB : B.Lenient) (hg : g.Blames B) : Blames B (caseStatement g) := by
  refine blames_bind blames_advance fun _ => ?_
  refine blames_bind (blames_withBraceBlocks _ (binaryIn_blames hg _ _ _)) fun _ => ?_
  refine blames_bind (blames_expectSymbol _) fun _ => ?_
  refine blames_bind (untilClosed_blames (caseArm_blames hB hg) _) fun _ => ?_
  exact blames_bind (blames_expectSymbol _) fun _ => blames_pure _

/-! ## Composition -/

theorem compositionArray_blames (hg : g.Blames B) : Blames B (compositionArray g) := by
  refine blames_bind blames_advance fun _ => blames_bind (blames_nextIs _) fun ofStrings => ?_
  refine blames_bind (commaList_blames (blames_ite ?_ ?_)) fun _ => ?_
  · exact points_bind (points_expect _) fun _ ht => string_blames hg ht
  · exact blames_bind (blames_expect _) fun _ => blames_pure _
  · exact blames_bind (blames_expectSymbol _) fun _ => blames_pure _

theorem compositionTarget_blames (hg : g.Blames B) : Blames B (compositionTarget g) := by
  refine points_bind points_current fun t ht => points_bind points_second fun next _ => ?_
  split
  · exact blames_bind blames_advance fun _ => blames_pure _
  · exact blames_bind blames_advance fun _ => blames_pure _
  · exact blames_bind blames_advance fun _ => string_blames hg ht
  · exact compositionArray_blames hg
  · exact blames_ite (referenceOperand_blames hg) (points_unexpected ht _)
  · exact points_unexpected ht _

theorem composition_blames (hg : g.Blames B) (verb : CompositionVerb) :
    Blames B (composition g verb) := by
  refine blames_bind blames_advance fun _ => ?_
  exact blames_bind (commaSeparated_blames (compositionTarget_blames hg)) fun _ => blames_pure _

/-! ## Declarations -/

theorem declaredName_blames : Blames B declaredName := by
  refine points_bind points_current fun t ht => ?_
  exact blames_ite (points_unexpected ht _) (blames_bind blames_advance fun _ => blames_pure _)

theorem optionalParameters_blames (hg : g.Blames B) : Blames B (optionalParameters g) := by
  refine blames_bind (blames_atSymbol _) fun _ => blames_ite (blames_map _ ?_) (blames_pure _)
  exact blames_withBraceBlocks _ (parameterList_blames hg _ _)

theorem optionalInheritance_blames : Blames B optionalInheritance := by
  refine blames_bind (blames_nextIs _) fun _ => blames_ite ?_ (blames_pure _)
  refine blames_bind blames_advance fun _ => ?_
  exact blames_bind declaredName_blames fun _ => blames_pure _

theorem declaration_blames (hg : g.Blames B) (keyword : DeclarationKeyword) :
    Blames B (declaration g keyword) := by
  refine blames_bind blames_advance fun _ => blames_bind declaredName_blames fun _ => ?_
  refine blames_bind (optionalParameters_blames hg) fun _ => ?_
  refine blames_bind optionalInheritance_blames fun _ => ?_
  exact blames_bind (body_blames hg) fun _ => blames_pure _

theorem typeDeclaration_blames (hg : g.Blames B) : Blames B (typeDeclaration g) := by
  refine blames_bind blames_advance fun _ => blames_bind (blames_expect _) fun _ => ?_
  refine blames_bind (blames_expectSymbol _) fun _ => ?_
  exact blames_bind (typeExpression_blames hg) fun _ => blames_pure _

theorem functionDeclaration_blames (hg : g.Blames B) : Blames B (functionDeclaration g) := by
  refine blames_bind blames_advance fun _ => blames_bind declaredName_blames fun _ => ?_
  refine blames_bind (optionalParameters_blames hg) fun _ => ?_
  refine blames_bind (blames_atSymbol _) fun _ => ?_
  refine blames_optional blames_advanceLeaf fun arrow => ?_
  refine blames_optional (typeExpression_blames hg) fun _ => ?_
  exact blames_bind (body_blames hg) fun _ => blames_pure _

theorem nodeMatch_blames (hg : g.Blames B) : Blames B (nodeMatch g) := by
  refine points_bind points_current fun t ht => ?_
  split
  · exact blames_bind blames_advance fun _ => string_blames hg ht
  · exact blames_bind blames_advance fun _ => blames_pure _
  · exact blames_bind blames_advance fun _ => blames_pure _
  · exact points_unexpected ht _

theorem nodeDefinition_blames (hg : g.Blames B) : Blames B (nodeDefinition g) := by
  refine blames_bind blames_advance fun _ => ?_
  refine blames_bind (commaSeparated_blames (nodeMatch_blames hg)) fun _ => ?_
  exact blames_bind (body_blames hg) fun _ => blames_pure _

/-! ## Resources -/

theorem resourceBody_blames (hg : g.Blames B) : Blames B (resourceBody g) := by
  refine blames_bind (binaryIn_blames hg _ _ _) fun _ => ?_
  refine points_bind points_current fun colon hc => ?_
  refine blames_ite (points_reject (B.refuses hc nofun)) (blames_ite (points_unexpected hc _) ?_)
  refine blames_bind blames_advance fun _ => ?_
  exact blames_bind (attributes_blames hg _) fun _ => blames_pure _

theorem resourceBodies_blames (hg : g.Blames B) : Blames B (resourceBodies g) := by
  refine repeatFrom_blames (fun (bodies, semicolons) => ?_) _
  refine blames_bind (resourceBody_blames hg) fun _ => blames_bind (blames_atSymbol _) fun _ => ?_
  refine blames_ite (blames_bind blames_advanceLeaf fun _ => ?_) (blames_pure _)
  refine blames_bind (blames_atSymbol _) fun _ => ?_
  exact blames_ite (blames_pure _) (blames_pure _)

theorem resourceCall_blames (hg : g.Blames B) : Blames B (resourceCall g) := by
  refine points_bind points_current fun first _ => ?_
  refine blames_optional blames_advanceLeaf fun _ => points_bind points_current fun t ht => ?_
  refine blames_ite (points_unexpected ht _) (blames_bind blames_advance fun _ => ?_)
  refine blames_bind (blames_expectSymbol _) fun _ => ?_
  refine blames_bind (blames_withBraceBlocks _ (resourceBodies_blames hg)) fun _ => ?_
  refine points_bind points_current fun close hc => ?_
  exact blames_ite (points_reject (B.refuses hc nofun))
    (blames_bind blames_advance fun _ => blames_pure _)

theorem resourceDefaults_blames (hg : g.Blames B) : Blames B (resourceDefaults g) := by
  refine blames_bind blames_advance fun _ => blames_bind (blames_expectSymbol _) fun _ => ?_
  refine blames_bind (blames_withBraceBlocks _ (attributes_blames hg _)) fun _ => ?_
  exact blames_bind (blames_expectSymbol _) fun _ => blames_pure _

/-! ## Chains -/

theorem chainElement_blames (hg : g.Blames B) : Blames B (chainElement g) := by
  refine points_bind points_current fun t ht => points_bind points_second fun _ _ => ?_
  refine blames_ite (resourceCall_blames hg) (blames_bind (operand_blames hg _) fun _ => ?_)
  exact blames_ite (blames_pure _) (points_reject (B.refuses ht nofun))

theorem chain_blames (hg : g.Blames B) (left : Node) : Blames B (chain g left) := by
  refine repeatFrom_blames (fun left => ?_) left
  refine points_bind points_current fun t _ => ?_
  split
  · exact blames_pure _
  · refine blames_bind blames_advanceLeaf fun _ => ?_
    exact blames_bind (chainElement_blames hg) fun _ => blames_pure _

/-! ## Statements -/

/-- A case statement within which the grammar is used reports only what may be reported. -/
def CaseBlames (B : Blame) (g : Grammar) : Prop :=
  ∀ scope s, B.streams s → s.current.kind = .keyword .case →
    PointsAt B (caseStatement g) (fun _ => True) scope s

theorem unchained_blames (hg : g.Blames B) (hcase : CaseBlames B g) :
    Blames B (unchained g) := by
  intro scope s hs
  refine pointsAt_current.mpr (pointsAt_second.mpr ?_)
  -- The next token stays known, as it says which construct reads on.
  have at_s {p : Parser Node} (h : Blames B p) : PointsAt B p (fun _ => True) scope s :=
    h scope s hs
  split
  · exact at_s (ifStatement_blames hg)
  · exact at_s (unlessStatement_blames hg)
  · exact hcase scope s hs ‹_›
  · exact at_s (composition_blames hg _)
  · exact at_s (composition_blames hg _)
  · exact at_s (composition_blames hg _)
  · exact at_s (blames_ite (resourceCall_blames hg) (declaration_blames hg _))
  · exact at_s (declaration_blames hg _)
  · exact at_s (declaration_blames hg _)
  · exact at_s (typeDeclaration_blames hg)
  · exact at_s (functionDeclaration_blames hg)
  · exact at_s (nodeDefinition_blames hg)
  · refine at_s (blames_ite (resourceCall_blames hg) (blames_ite (resourceDefaults_blames hg) ?_))
    exact command_blames hg _

theorem statement_blames (hg : g.Blames B) (hcase : CaseBlames B g) : Blames B (statement g) := by
  refine blames_bind (unchained_blames hg hcase) fun first => ?_
  exact blames_ite (chain_blames hg first) (blames_pure _)

/-! ## Whole sources -/

/-- A second default may be reported within the selectors and case statements of every grammar. -/
structure DefaultsBlame (B : Blame) : Prop where
  selector : ∀ n, (grammar n).Reports B → ∀ subject scope s, B.streams s →
    s.current.kind = .symbol .question →
      PointsAt B (selector (grammar n) subject) (fun _ => True) scope s
  caseStatement : ∀ n, (grammar n).Blames B → CaseBlames B (grammar n)

/-- The parsers of the grammar report only what may be reported, with any bound on nesting. -/
theorem grammar_blames (hd : DefaultsBlame B) (n : Nat) : (grammar n).Blames B := by
  induction n with
  | zero =>
    have hreports : (grammar 0).Reports B :=
      ⟨fun _ _ => points_fail nofun, fun _ => points_fail nofun, points_fail nofun,
        points_fail nofun, points_fail nofun, fun _ _ _ h => by cases h⟩
    exact ⟨hreports, hd.selector 0 hreports⟩
  | succ n ih =>
    have hreports : (grammar (n + 1)).Reports B :=
      ⟨fun _ _ => binaryIn_blames ih _ _ _, fun _ => command_blames ih _, unary_blames ih _,
        typeExpression_blames ih, statement_blames ih (hd.caseStatement n ih),
        interpolated_blames ih⟩
    exact ⟨hreports, hd.selector (n + 1) hreports⟩

/-- Tokens that do not parse are refused as may be reported. -/
theorem tokens_blames (hd : DefaultsBlame B) {ts : List Token} (hts : B.streams (.ofTokens ts))
    {e : SyntaxError} (h : Parse.tokens ts = .error (.rejected e)) : B.refusals e := by
  have hstatements (n : Nat) : Blames B (statements (grammar n)) := by
    have hg := grammar_blames hd n
    refine blames_bind (untilClosed_blames (fun _ => ?_) _) fun _ => blames_pure _
    exact blames_bind (statement_blames hg (hd.caseStatement n hg)) fun _ => blames_pure _
  exact (hstatements _).runOn hts h

theorem tokens_refused {P : Span → Prop} {ts : List Token} (hne : ts ≠ [])
    (hts : ∀ t ∈ ts, t.Marked P) {e : SyntaxError} (h : Parse.tokens ts = .error (.rejected e)) :
    P e.span := by
  have hB : (Blame.marked P).Lenient := Blame.marked_lenient
  have hd : DefaultsBlame (.marked P) :=
    ⟨fun _ hg subject scope s hs _ => selector_blames hB hg subject scope s hs,
      fun _ hg scope s hs _ => caseStatement_blames hB hg scope s hs⟩
  exact tokens_blames hd (TokenStream.ofTokens_marked hne hts) h

end Parse

end ManifestTree
