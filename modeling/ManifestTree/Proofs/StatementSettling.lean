import ManifestTree.Parse.Manifest
import ManifestTree.Proofs.ExpressionSettling

/-!
# Statements settle

Every keyword statement consumes its keyword before it asks for anything within it.  By induction
on the bound the grammar of a bound settles on all streams that stand for fewer tokens, so parsing
the tokens of a source never meets the bound that `Parse.tokens` sets.
-/

namespace ManifestTree

open Parse ManifestTree.Parser TokenStream

variable {N : Text → Prop} {n : Nat} {g : Grammar} {scope : Scope} {s : TokenStream}

namespace Parse

/-! ## Conditionals -/

theorem condition_settles (hg : g.Settles N n) (hs : s.Tidy N n) :
    Consumes N (condition g) scope s := command_settles hg _ hs.succ

theorem optionalElse_settles (hg : g.Settles N n) (hs : s.Tidy N n) :
    Settles N (optionalElse g) scope s fun _ s' => s.Reaches s' := by
  simp only [optionalElse, settles_bind, settles_nextIs, settles_ite, settles_advance,
    settles_pure, decide_eq_true_eq]
  refine ⟨fun hk => ?_, fun _ => .refl s⟩
  have h₁ := hs.advances_tail (by simp [hk])
  exact (body_settles hg (hs.reaches h₁.reaches)).mono fun _ _ h => (h₁.trans h.reaches).reaches

/-- A keyword, a condition and a body. -/
theorem conditional_settles {α : Type} (hg : g.Settles N n) (hs : s.Tidy N (n + 1))
    (hk : s.current.kind ≠ .endOfInput) {rest : Token → Node → Node → Parser α}
    (hrest : ∀ keyword test block s', s.Advances s' → s'.Tidy N n →
      Settles N (rest keyword test block) scope s' fun _ s'' => s'.Reaches s'') :
    Consumes N (do rest (← advance) (← condition g) (← body g)) scope s := by
  have h₁ := hs.advances_tail hk
  have hs₁ := hs.advances h₁
  simp only [Consumes, settles_bind, settles_advance]
  refine (condition_settles hg hs₁).mono fun _ s₂ h₂ => ?_
  have hs₂ := hs₁.reaches h₂.reaches
  refine (body_settles hg hs₂).mono fun _ s₃ h₃ => ?_
  have h := h₁.trans (h₂.trans h₃.reaches).reaches
  exact (hrest _ _ _ s₃ h (hs.advances h)).mono fun _ _ k => h.trans k

theorem elsif_settles (hg : g.Settles N n) (hs : s.Tidy N n)
    (hk : s.current.kind ≠ .endOfInput) : Consumes N (elsif g) scope s :=
  conditional_settles hg hs.succ hk fun _ _ _ _ _ _ => .refl _

theorem ifStatement_settles (hg : g.Settles N n) (hs : s.Tidy N (n + 1))
    (hk : s.current.kind ≠ .endOfInput) : Consumes N (ifStatement g) scope s := by
  refine conditional_settles hg hs hk fun _ _ _ s₁ _ hs₁ => ?_
  simp only [settles_bind, settles_pure]
  refine (untilClosed_settles (fun _ s₂ hs₂ hk => ?_) hs₁ ()).mono fun _ s₂ h => ?_
  · simp only [Consumes, settles_bind, settles_pure]
    exact elsif_settles hg hs₂ (by simp_all)
  · exact (optionalElse_settles hg (hs₁.reaches h)).mono fun _ _ k => h.trans k

theorem unlessStatement_settles (hg : g.Settles N n) (hs : s.Tidy N (n + 1))
    (hk : s.current.kind ≠ .endOfInput) : Consumes N (unlessStatement g) scope s := by
  refine conditional_settles hg hs hk fun _ _ _ s₁ _ hs₁ => ?_
  simp only [settles_bind, settles_pure]
  exact optionalElse_settles hg hs₁

theorem caseOption_settles (hg : g.Settles N n) (seen : Bool) (o : CaseOptions)
    (hs : s.Tidy N n) : Consumes N (caseOption g seen o) scope s := by
  simp only [Consumes, caseOption, settles_bind, settles_current, settles_ite, settles_reject,
    Problem.kind, ProblemKind.isLexical, settles_pure, implies_true, true_and]
  exact (hg.value _ hs).mono fun _ _ h => ⟨fun _ _ => h, fun _ => h⟩

theorem caseOptions_settles (hg : g.Settles N n) (seen : Bool) (hs : s.Tidy N n) :
    Consumes N (caseOptions g seen) scope s := by
  simp only [Consumes, caseOptions, settles_bind]
  refine (caseOption_settles hg seen _ hs).mono fun first s₁ h₁ => ?_
  have hs₁ := hs.reaches h₁.reaches
  refine (repeatFrom_settles hs₁ (fun o s₂ hs₂ => ?_) first).mono fun _ _ h => h₁.trans h
  simp only [settles_bind, settles_atSymbol, settles_ite, settles_advanceLeaf, settles_map,
    settles_pure, decide_eq_true_eq]
  refine ⟨fun hk => ?_, fun _ => .refl s₂⟩
  have h₂ := hs₂.advances_tail (by simp [hk])
  exact (caseOption_settles hg seen _ (hs₂.reaches h₂.reaches)).mono
    fun _ _ h => h₂.trans h.reaches

theorem caseArm_settles (hg : g.Settles N n) (seen : Bool) (hs : s.Tidy N n) :
    Consumes N (caseArm g seen) scope s := by
  simp only [Consumes, caseArm, settles_bind, settles_current, settles_expectSymbol, settles_pure]
  refine (caseOptions_settles hg seen hs).mono fun _ s₁ h hk => ?_
  have h₁ := hs.advances_past h.reaches (by simp [hk])
  exact (body_settles hg (hs.reaches h₁.reaches)).mono fun _ _ h => h₁.trans h.reaches

theorem caseStatement_settles (hg : g.Settles N n) (hs : s.Tidy N (n + 1))
    (hk : s.current.kind ≠ .endOfInput) : Consumes N (caseStatement g) scope s := by
  have h₁ := hs.advances_tail hk
  have hs₁ := hs.advances h₁
  simp only [Consumes, caseStatement, settles_bind, settles_advance, settles_withBraceBlocks,
    settles_expectSymbol, settles_pure]
  refine (binaryIn_settles hg .value _ false hs₁.succ).mono fun _ s₂ h ho => ?_
  have h₂ := hs₁.advances_past h.reaches (by simp [ho])
  have hs₂ := hs₁.reaches h₂.reaches
  refine (untilClosed_settles (fun seen s₃ hs₃ _ => caseArm_settles hg seen hs₃) hs₂ false).mono
    fun _ s₃ h hc => ?_
  exact h₁.trans (hs₁.advances_past (h₂.trans h).reaches (by simp [hc])).reaches

/-! ## Composition -/

theorem compositionArray_settles (hg : g.Settles N n) (hs : s.Tidy N n)
    (hk : s.current.kind ≠ .endOfInput) : Consumes N (compositionArray g) scope s := by
  have h₁ := hs.advances_tail hk
  simp only [Consumes, compositionArray, settles_bind, settles_advance, settles_nextIs,
    settles_expectSymbol, settles_pure]
  refine (commaList_settles (fun s₂ hs₂ => ?_) (hs.reaches h₁.reaches)).mono fun _ s₂ h hc => ?_
  · simp only [Consumes, settles_ite, settles_bind, settles_expect, settles_pure]
    refine ⟨fun _ hk => ?_, fun _ hk => hs₂.advances_tail (by simp [hk])⟩
    exact string_settles hg hs₂.succ hk fun _ => hs₂.advances_tail (by simp [hk])
  · exact hs.advances_past (h₁.trans h).reaches (by simp [hc])

theorem compositionTarget_settles (hg : g.Settles N n) (s : TokenStream) (hs : s.Tidy N n) :
    Consumes N (compositionTarget g) scope s := by
  simp only [Consumes, compositionTarget, settles_bind, settles_current, settles_second]
  split
  · rename_i hk
    exact hs.advances_tail (by simp [hk])
  · rename_i hk
    exact hs.advances_tail (by simp [hk])
  · rename_i hk
    simp only [settles_bind, settles_advance]
    exact string_settles hg hs.succ hk fun _ => hs.advances_tail (by simp [hk])
  · rename_i hk
    exact compositionArray_settles hg hs (by simp [hk])
  · rename_i hk
    simp only [settles_ite, settles_unexpected, implies_true, and_true]
    exact fun _ => referenceOperand_settles hg hs.succ (by simp [hk])
  · exact settles_unexpected

theorem composition_settles (hg : g.Settles N n) (verb : CompositionVerb) (hs : s.Tidy N (n + 1))
    (hk : s.current.kind ≠ .endOfInput) : Consumes N (composition g verb) scope s := by
  have h₁ := hs.advances_tail hk
  simp only [Consumes, composition, settles_bind, settles_advance, settles_pure]
  exact (commaSeparated_settles (compositionTarget_settles hg) (hs.advances h₁)).mono
    fun _ _ h => h₁.trans h.reaches

/-! ## Declarations -/

theorem declaredName_settles (hs : s.Tidy N n) : Consumes N declaredName scope s := by
  simp only [Consumes, declaredName, settles_bind, settles_current, settles_ite,
    settles_unexpected, settles_advance, settles_pure, implies_true, true_and, Decidable.not_not]
  intro hk
  exact hs.advances_tail (by simp [hk])

theorem optionalParameters_settles (hg : g.Settles N n) (hs : s.Tidy N n) :
    Settles N (optionalParameters g) scope s fun _ s' => s.Reaches s' := by
  simp only [optionalParameters, settles_bind, settles_atSymbol, settles_ite, settles_map,
    settles_withBraceBlocks, settles_pure]
  refine ⟨fun _ => ?_, fun _ => .refl s⟩
  exact (parameterList_settles hg .leftParen .rightParen hs).mono fun _ _ h => h.reaches

theorem optionalInheritance_settles (hs : s.Tidy N n) :
    Settles N optionalInheritance scope s fun _ s' => s.Reaches s' := by
  simp only [optionalInheritance, settles_bind, settles_nextIs, settles_ite, settles_advance,
    settles_pure, decide_eq_true_eq]
  refine ⟨fun hk => ?_, fun _ => .refl s⟩
  have h₁ := hs.advances_tail (by simp [hk])
  exact (declaredName_settles (hs.reaches h₁.reaches)).mono
    fun _ _ h => (h₁.trans h.reaches).reaches

theorem declaration_settles (hg : g.Settles N n) (keyword : DeclarationKeyword)
    (hs : s.Tidy N (n + 1)) (hk : s.current.kind ≠ .endOfInput) :
    Consumes N (declaration g keyword) scope s := by
  have h₁ := hs.advances_tail hk
  have hs₁ := hs.advances h₁
  simp only [Consumes, declaration, settles_bind, settles_advance, settles_pure]
  refine (declaredName_settles hs₁).mono fun _ s₂ h₂ => ?_
  have hs₂ := hs₁.reaches h₂.reaches
  refine (optionalParameters_settles hg hs₂).mono fun _ s₃ h₃ => ?_
  have hs₃ := hs₂.reaches h₃
  refine (optionalInheritance_settles hs₃).mono fun _ s₄ h₄ => ?_
  refine (body_settles hg (hs₃.reaches h₄)).mono fun _ _ h₅ => ?_
  exact h₁.trans (h₂.trans (h₃.trans (h₄.trans h₅.reaches))).reaches

theorem typeDeclaration_settles (hg : g.Settles N n) (hs : s.Tidy N (n + 1))
    (hk : s.current.kind ≠ .endOfInput) : Consumes N (typeDeclaration g) scope s := by
  have h₁ := hs.advances_tail hk
  simp only [Consumes, typeDeclaration, settles_bind, settles_advance, settles_expect,
    settles_expectSymbol, settles_pure]
  intro hname heq
  have h₂ := hs.advances_past h₁.reaches (by simp [hname])
  have h₃ := hs.advances_past h₂.reaches (by simp [heq])
  exact (typeExpression_settles hg (hs.advances h₃).succ).mono fun _ _ h => h₃.trans h.reaches

theorem functionDeclaration_settles (hg : g.Settles N n) (hs : s.Tidy N (n + 1))
    (hk : s.current.kind ≠ .endOfInput) : Consumes N (functionDeclaration g) scope s := by
  have h₁ := hs.advances_tail hk
  have hs₁ := hs.advances h₁
  simp only [Consumes, functionDeclaration, ite_bind, settles_bind, settles_advance,
    settles_atSymbol, settles_pure]
  refine (declaredName_settles hs₁).mono fun _ s₂ h₂ => ?_
  have hs₂ := hs₁.reaches h₂.reaches
  refine (optionalParameters_settles hg hs₂).mono fun _ s₃ h₃ => ?_
  have hs₃ := hs₂.reaches h₃
  refine (optional_settles fun hk => advanceLeaf_settles hs₃ (by simp_all)).mono
    fun _ s₄ h₄ => ?_
  have hs₄ := hs₃.reaches h₄
  refine (optional_settles fun _ => typeExpression_settles hg hs₄.succ).mono fun _ s₅ h₅ => ?_
  refine (body_settles hg (hs₄.reaches h₅)).mono fun _ _ h₆ => ?_
  exact h₁.trans (h₂.trans (h₃.trans (h₄.trans (h₅.trans h₆.reaches)))).reaches

theorem nodeMatch_settles (hg : g.Settles N n) (s : TokenStream) (hs : s.Tidy N n) :
    Consumes N (nodeMatch g) scope s := by
  simp only [Consumes, nodeMatch, settles_bind, settles_current]
  split
  · rename_i hk
    simp only [settles_bind, settles_advance]
    exact string_settles hg hs.succ hk fun _ => hs.advances_tail (by simp [hk])
  · rename_i hk
    exact hs.advances_tail (by simp [hk])
  · rename_i hk
    exact hs.advances_tail (by simp [hk])
  · exact settles_unexpected

theorem nodeDefinition_settles (hg : g.Settles N n) (hs : s.Tidy N (n + 1))
    (hk : s.current.kind ≠ .endOfInput) : Consumes N (nodeDefinition g) scope s := by
  have h₁ := hs.advances_tail hk
  have hs₁ := hs.advances h₁
  simp only [Consumes, nodeDefinition, settles_bind, settles_advance, settles_pure]
  refine (commaSeparated_settles (nodeMatch_settles hg) hs₁).mono fun _ s₂ h₂ => ?_
  refine (body_settles hg (hs₁.reaches h₂.reaches)).mono fun _ _ h₃ => ?_
  exact h₁.trans (h₂.trans h₃.reaches).reaches

/-! ## Resources -/

theorem resourceBody_settles (hg : g.Settles N n) (hs : s.Tidy N n) :
    Consumes N (resourceBody g) scope s := by
  simp only [Consumes, resourceBody, settles_bind, settles_current, settles_ite, settles_reject,
    Problem.kind, ProblemKind.isLexical, settles_unexpected, settles_advance, settles_pure,
    implies_true, true_and, Decidable.not_not]
  refine (binaryIn_settles hg .resourceTitle _ false hs.succ).mono fun _ s₁ h _ hk => ?_
  have h₁ := hs.advances_past h.reaches (by simp [hk])
  exact (attributes_settles hg _ (hs.reaches h₁.reaches)).mono fun _ _ h => h₁.trans h

theorem resourceBodies_settles (hg : g.Settles N n) (hs : s.Tidy N n) :
    Settles N (resourceBodies g) scope s fun _ s' => s.Reaches s' := by
  refine repeatFrom_settles hs (fun r s₁ hs₁ => ?_) _
  obtain ⟨bodies, semicolons⟩ := r
  simp only [settles_bind, settles_atSymbol, settles_ite, settles_advanceLeaf, settles_pure,
    decide_eq_true_eq]
  refine (resourceBody_settles hg hs₁).mono fun _ s₂ h => ⟨fun hk => ?_, fun _ => h.reaches⟩
  have h₂ := hs₁.advances_past h.reaches (by simp [hk])
  exact ⟨fun _ => h₂.reaches, fun _ => h₂⟩

theorem resourceCall_settles (hg : g.Settles N n) (hs : s.Tidy N (n + 1)) :
    Consumes N (resourceCall g) scope s := by
  simp only [Consumes, resourceCall, ite_bind, settles_bind, settles_current]
  refine (optional_settles fun hform => advanceLeaf_settles hs fun h => ?_).mono fun _ s₁ h₁ => ?_
  · simp [h, resourceForm] at hform
  have hs₁ := hs.reaches h₁
  simp only [settles_ite, settles_unexpected, settles_bind, settles_advance,
    settles_withBraceBlocks, settles_expectSymbol, settles_current, settles_reject, Problem.kind,
    ProblemKind.isLexical, settles_pure, implies_true, true_and, Decidable.not_not]
  intro htype ho
  have h₂ := hs₁.advances_tail fun h => by simp [h] at htype
  have h₃ := hs₁.advances_past h₂.reaches (by simp [ho])
  refine (resourceBodies_settles hg (hs₁.advances h₃)).mono fun _ s₄ h hc => ?_
  exact h₁.advances (hs₁.advances_past (h₃.trans h).reaches (by simp [hc]))

theorem resourceDefaults_settles (hg : g.Settles N n) (hs : s.Tidy N (n + 1))
    (hk : s.current.kind ≠ .endOfInput) : Consumes N (resourceDefaults g) scope s := by
  have h₁ := hs.advances_tail hk
  simp only [Consumes, resourceDefaults, settles_bind, settles_advance, settles_withBraceBlocks,
    settles_expectSymbol, settles_pure]
  intro ho
  have h₂ := hs.advances_past h₁.reaches (by simp [ho])
  refine (attributes_settles hg _ (hs.advances h₂)).mono fun _ s₃ h hc => ?_
  exact hs.advances_past (h₂.trans h).reaches (by simp [hc])

/-! ## Chains -/

theorem chainElement_settles (hg : g.Settles N n) (hs : s.Tidy N n) :
    Consumes N (chainElement g) scope s := by
  simp only [Consumes, chainElement, settles_bind, settles_current, settles_second, settles_ite,
    settles_reject, Problem.kind, ProblemKind.isLexical, settles_pure, implies_true, and_true]
  refine ⟨fun _ => resourceCall_settles hg hs.succ, fun _ => ?_⟩
  exact (operand_settles hg .value hs.succ).mono fun _ _ h _ => h

theorem chain_settles (hg : g.Settles N n) (hs : s.Tidy N n) (left : Node) :
    Settles N (chain g left) scope s fun _ s' => s.Reaches s' := by
  refine repeatFrom_settles hs (fun left s₁ hs₁ => ?_) left
  simp only [settles_bind, settles_current]
  split
  · exact .refl s₁
  · rename_i arrow harrow
    have h₁ := hs₁.advances_tail fun h => by simp [h, chainArrow?] at harrow
    simp only [settles_bind, settles_advanceLeaf, settles_pure]
    exact (chainElement_settles hg (hs₁.reaches h₁.reaches)).mono fun _ _ h => h₁.trans h.reaches

/-! ## Statements -/

theorem unchained_settles (hg : g.Settles N n) (hs : s.Tidy N (n + 1)) :
    Consumes N (unchained g) scope s := by
  simp only [Consumes, unchained, settles_bind, settles_current, settles_second]
  split <;> rename_i hk
  · exact ifStatement_settles hg hs (by simp [hk])
  · exact unlessStatement_settles hg hs (by simp [hk])
  · exact caseStatement_settles hg hs (by simp [hk])
  · exact composition_settles hg .include hs (by simp [hk])
  · exact composition_settles hg .require hs (by simp [hk])
  · exact composition_settles hg .contain hs (by simp [hk])
  · rw [settles_ite]
    refine ⟨fun _ => resourceCall_settles hg hs, fun _ => ?_⟩
    exact declaration_settles hg .class hs (by simp [hk])
  · exact declaration_settles hg .define hs (by simp [hk])
  · exact declaration_settles hg .plan hs (by simp [hk])
  · exact typeDeclaration_settles hg hs (by simp [hk])
  · exact functionDeclaration_settles hg hs (by simp [hk])
  · exact nodeDefinition_settles hg hs (by simp [hk])
  · rw [settles_ite, settles_ite]
    refine ⟨fun _ => resourceCall_settles hg hs, fun _ => ⟨fun hr => ?_, fun _ => ?_⟩⟩
    · exact resourceDefaults_settles hg hs fun h => by simp [h] at hr
    · exact command_settles hg _ hs

theorem statement_settles (hg : g.Settles N n) (hs : s.Tidy N (n + 1)) :
    Consumes N (statement g) scope s := by
  simp only [Consumes, statement, settles_bind, settles_ite, settles_pure]
  refine (unchained_settles hg hs).mono fun _ s₁ h => ⟨fun _ => ?_, fun _ => h⟩
  exact (chain_settles hg (hs.advances h) _).mono fun _ _ k => h.trans k

/-! ## The grammar -/

/-- The grammar of a bound settles on streams that stand for fewer tokens. -/
theorem grammar_settles (N : Text → Prop) (n : Nat) : (grammar n).Settles N n := by
  induction n with
  | zero =>
    have impossible {s : TokenStream} (hs : s.Tidy N 0) : False := Nat.not_lt_zero _ hs.size
    exact ⟨fun hs => (impossible hs).elim, fun hs => (impossible hs).elim,
      fun hs => (impossible hs).elim, fun hs => (impossible hs).elim,
      fun hs => (impossible hs).elim, fun _ _ _ h => absurd h (Nat.not_lt_zero _)⟩
  | succ n ih =>
    exact ⟨binaryIn_settles ih .value _ _, command_settles ih _, unary_settles ih .value,
      typeExpression_settles ih, statement_settles ih, interpolated_error ih⟩

/-- Parsing terminated tokens before an end of input fails as a parser of tokens may. -/
theorem tokens_error {ts : List Token} {last : Token} {f : Failure}
    (hlast : last.kind = .endOfInput) (ht : ∀ t ∈ ts, t.Terminated) (hN : ∀ t ∈ ts, t.Numbered N)
    (h : tokens (ts ++ [last]) = .error f) : f.OfParsing N := by
  unfold tokens at h
  generalize hn : Token.countAll (ts ++ [last]) = n at h
  have hs : (ofTokens (ts ++ [last])).Tidy N (n + 1) := by
    refine ofTokens_tidy hlast ht hN ?_
    rw [Token.countAll_append] at hn
    omega
  refine Settles.runOn (Q := fun _ _ => True) ?_ h
  simp only [statements, settles_bind, settles_pure]
  refine (untilClosed_settles (fun _ s₁ hs₁ _ => ?_) hs ()).mono fun _ _ _ => trivial
  simp only [Consumes, settles_bind, settles_pure]
  exact statement_settles (grammar_settles N (n + 1)) hs₁.succ

end Parse

end ManifestTree
