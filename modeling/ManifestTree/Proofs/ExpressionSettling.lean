import ManifestTree.Proofs.Settling

/-!
# Expressions settle

The contract `Grammar.Settles` is what every construct asks of the grammar for the constructs
within it: on a stream that stands for fewer than `n` tokens they settle and consume.  A construct
that begins where it was asked for reads a token before it asks the grammar, so it may stand for one
token more than what it asks for.  This is how the bound on nesting is never met.
-/

namespace ManifestTree

open Parse ManifestTree.Parser TokenStream

/-- On streams that stand for fewer than `n` tokens every parser of the grammar settles, and it
consumes a token where it answers. -/
structure Grammar.Settles (N : Text → Prop) (n : Nat) (g : Grammar) : Prop where
  binary : ∀ {scope s maxRank command}, s.Tidy N n →
    Consumes N (g.binary maxRank command) scope s
  command : ∀ {scope s maxRank}, s.Tidy N n → Consumes N (g.command maxRank) scope s
  unary : ∀ {scope s}, s.Tidy N n → Consumes N g.unary scope s
  type : ∀ {scope s}, s.Tidy N n → Consumes N g.type scope s
  statement : ∀ {scope s}, s.Tidy N n → Consumes N g.statement scope s
  interpolated : ∀ {inner last f}, last.kind = .endOfInput → (∀ t ∈ inner, t.Terminated) →
    (∀ t ∈ inner, t.Numbered N) → Token.countAll inner < n →
    g.interpolated (inner ++ [last]) = .error f → f.OfParsing N

variable {N : Text → Prop} {n : Nat} {g : Grammar} {scope : Scope} {s : TokenStream}

theorem Grammar.Settles.expression (hg : g.Settles N n) (s : TokenStream) (hs : s.Tidy N n) :
    Consumes N g.expression scope s := hg.binary hs

theorem Grammar.Settles.value (hg : g.Settles N n) (s : TokenStream) (hs : s.Tidy N n) :
    Consumes N g.value scope s := hg.binary hs

namespace Parse

/-! ## Indices and arguments -/

theorem indexList_settles (hg : g.Settles N n) (hs : s.Tidy N n) :
    Consumes N (indexList g) scope s := by
  simp only [Consumes, indexList, settles_bind, settles_expectSymbol, settles_withBraceBlocks,
    settles_pure]
  intro ho
  have ho := hs.advances_tail (by simp [ho])
  refine (commaSeparated_settles hg.expression (hs.reaches ho.reaches)).mono fun _ s₁ h hc => ?_
  exact hs.advances_past (ho.trans h.reaches).reaches (by simp [hc])

theorem argumentList_settles (hg : g.Settles N n) (hs : s.Tidy N n) :
    Consumes N (argumentList g) scope s := by
  simp only [Consumes, argumentList, settles_bind, settles_expectSymbol, settles_withBraceBlocks,
    settles_pure]
  intro ho
  have ho := hs.advances_tail (by simp [ho])
  refine (commaList_settles hg.expression (hs.reaches ho.reaches)).mono fun _ s₁ h hc => ?_
  exact hs.advances_past (ho.trans h).reaches (by simp [hc])

/-! ## Types and parameters -/

theorem typeArgument_settles (hg : g.Settles N n) (s : TokenStream) (hs : s.Tidy N n) :
    Consumes N (typeArgument g) scope s := by
  simp only [Consumes, typeArgument, settles_bind, settles_current, settles_ite, settles_pure,
    settles_reject, Problem.kind, ProblemKind.isLexical, implies_true, and_true]
  refine ⟨fun _ => hg.type hs, fun _ => ?_⟩
  exact (hg.unary hs).mono fun _ _ h _ => h

theorem typeExpression_settles (hg : g.Settles N n) (hs : s.Tidy N (n + 1)) :
    Consumes N (typeExpression g) scope s := by
  simp only [Consumes, typeExpression, settles_bind, settles_expect, settles_atSymbol, settles_ite,
    settles_advanceLeaf, settles_withBraceBlocks, settles_expectSymbol, settles_pure]
  intro hk
  have hk := hs.advances_tail (by simp [hk])
  have hs₁ := hs.advances hk
  refine ⟨fun ho => ?_, fun _ => hk⟩
  have ho := hs₁.advances_tail (by simp_all)
  refine (commaList_settles (typeArgument_settles hg) (hs₁.reaches ho.reaches)).mono
    fun _ s₂ h hc => ?_
  exact hk.trans (hs₁.advances_past (ho.trans h).reaches (by simp [hc])).reaches

/-- A construct that is there if a condition holds. -/
theorem optional_settles {α : Type} {c : Prop} [Decidable c] {p : Parser α}
    (hp : c → Consumes N p scope s) :
    Settles N (if c then some <$> p else pure none) scope s fun _ s' => s.Reaches s' := by
  simp only [settles_ite, settles_map, settles_pure]
  refine ⟨fun hc => ?_, fun _ => .refl s⟩
  exact (hp hc).mono fun _ _ h => h.reaches

theorem advanceLeaf_settles (hs : s.Tidy N n) (hk : s.current.kind ≠ .endOfInput) :
    Consumes N advanceLeaf scope s := hs.advances_tail hk

theorem parameter_settles (hg : g.Settles N n) (s : TokenStream) (hs : s.Tidy N n) :
    Consumes N (parameter g) scope s := by
  simp only [Consumes, parameter, ite_bind, settles_bind, settles_current, settles_atSymbol]
  refine (optional_settles fun _ => typeExpression_settles hg hs.succ).mono fun _ s₁ h₁ => ?_
  have hs₁ := hs.reaches h₁
  refine (optional_settles fun hk => advanceLeaf_settles hs₁ (by simp_all)).mono fun _ s₂ h₂ => ?_
  have hs₂ := hs₁.reaches h₂
  simp only [settles_ite, settles_unexpected, settles_bind, settles_advance, settles_atSymbol,
    settles_advanceLeaf, settles_withBraceBlocks, settles_pure, implies_true, true_and,
    Decidable.not_not]
  intro hk
  have h₃ := hs.advances_past (h₁.trans h₂) (by simp [hk])
  have hs₃ := hs.reaches h₃.reaches
  refine ⟨fun he => ?_, fun _ => h₃⟩
  have h₄ := hs₃.advances_tail (by simp_all)
  refine (hg.value _ (hs₃.reaches h₄.reaches)).mono fun _ _ h₅ => ?_
  exact h₃.trans (h₄.trans h₅.reaches).reaches

theorem parameterList_settles (hg : g.Settles N n) (opens closes : Symbol) (hs : s.Tidy N n) :
    Consumes N (parameterList g opens closes) scope s := by
  simp only [Consumes, parameterList, settles_bind, settles_expectSymbol, settles_pure]
  intro ho
  have ho := hs.advances_tail (by simp [ho])
  refine (commaList_settles (parameter_settles hg) (hs.reaches ho.reaches)).mono fun _ s₁ h hc => ?_
  exact hs.advances_past (ho.trans h).reaches (by simp [hc])

/-! ## Bodies and lambdas -/

theorem body_settles (hg : g.Settles N n) (hs : s.Tidy N n) : Consumes N (body g) scope s := by
  simp only [Consumes, body, settles_bind, settles_current, settles_ite, settles_reject,
    Problem.kind, ProblemKind.isLexical, settles_advance, settles_withBraceBlocks,
    settles_expectSymbol, settles_pure, implies_true, true_and, Decidable.not_not]
  intro ho
  have ho := hs.advances_tail (by simp [ho])
  refine (untilClosed_settles (fun _ s₁ hs₁ _ => ?_) (hs.reaches ho.reaches) ()).mono
    fun _ s₁ h hc => ?_
  · simp only [Consumes, settles_bind, settles_pure]
    exact hg.statement hs₁
  · exact hs.advances_past (ho.trans h).reaches (by simp [hc])

theorem lambda_settles (hg : g.Settles N n) (hs : s.Tidy N n) :
    Consumes N (lambda g) scope s := by
  simp only [Consumes, lambda, ite_bind, settles_bind, settles_atSymbol, settles_pure]
  refine (optional_settles fun _ => parameterList_settles hg .pipe .pipe hs).mono fun _ s₁ h => ?_
  exact (body_settles hg (hs.reaches h)).mono fun _ _ k => h.advances k

theorem optionalLambda_settles (hg : g.Settles N n) (hs : s.Tidy N n) :
    Settles N (optionalLambda g) scope s fun _ s' => s.Reaches s' := by
  have hl : Settles N (lambda g) scope s fun _ s' => s.Reaches s' :=
    (lambda_settles hg hs).mono fun _ _ h => h.reaches
  simp only [optionalLambda, settles_bind, settles_atSymbol, settles_read, settles_ite, settles_map,
    settles_pure]
  exact ⟨fun _ => hl, fun _ => ⟨fun _ => hl, fun _ => .refl s⟩⟩

/-! ## Strings and heredocs -/

/-- A fragment fails only where the grammar fails on what it interpolates. -/
theorem toNode_error (hg : g.Settles N n) {t : Token} (ht : t.Terminated) (hN : t.Numbered N)
    (hn : t.count ≤ n) {f : Fragment} (hdeep : f.deep ⊆ t.deepFragments)
    (hcount : f.count < t.count) {e : Failure} (h : f.toNode g = .error e) : e.OfParsing N := by
  cases hp : f.piece with
  | interpolation ts =>
    obtain ⟨inner, last, rfl, hlast, hc⟩ := ht.inner hdeep hp
    have htokens : f.tokens = inner ++ [last] := by rw [Fragment.tokens, hp]
    have hinner : ∀ u ∈ inner, u.Numbered N := fun u hu =>
      hN.inner hdeep (htokens ▸ List.mem_append_left _ hu)
    have hsize : Token.countAll inner < n := by
      rw [← Fragment.countAll_tokens, htokens, Token.countAll_append] at hcount
      omega
    simp only [Fragment.toNode, hp, Fragment.interpolationNode, bind_eq_error] at h
    obtain h | ⟨_, _, h⟩ := h
    · exact hg.interpolated hlast hc hinner hsize h
    · cases h
  | _ => simp [Fragment.toNode, hp] at h

theorem toNodes_error {fs : List Fragment} {P : Failure → Prop}
    (hP : ∀ f ∈ fs, ∀ e, f.toNode g = .error e → P e) {e : Failure}
    (h : Fragment.toNodes g fs = .error e) : P e := by
  unfold Fragment.toNodes at h
  induction fs with
  | nil => cases h
  | cons f fs ih =>
    rw [List.mapM_cons] at h
    obtain h | ⟨_, _, h⟩ := bind_eq_error.mp h
    · exact hP f List.mem_cons_self e h
    obtain h | ⟨_, _, h⟩ := bind_eq_error.mp h
    · exact ih (fun f' hf' => hP f' (List.mem_cons_of_mem _ hf')) h
    · cases h

theorem stringNode_error (hg : g.Settles N n) {t : Token} (ht : t.Terminated) (hN : t.Numbered N)
    (hn : t.count ≤ n) {e : Failure} (h : t.stringNode g = .error e) : e.OfParsing N := by
  unfold Token.stringNode at h
  obtain h | ⟨_, _, h⟩ := bind_eq_error.mp h
  · exact toNodes_error (fun f hf _ => toNode_error hg ht hN hn (Token.deep_subset hf)
      (Token.count_fragment hf)) h
  · cases h

theorem heredocNode_error (hg : g.Settles N n) {t : Token} (ht : t.Terminated) (hN : t.Numbered N)
    (hn : t.count ≤ n) {tag : HeredocTag} {b : HeredocBody} (hb : b ∈ t.body?) {e : Failure}
    (h : t.heredocNode g tag b = .error e) : e.OfParsing N := by
  unfold Token.heredocNode at h
  obtain h | ⟨_, _, h⟩ := bind_eq_error.mp h
  · exact toNodes_error (fun f hf _ => toNode_error hg ht hN hn (Token.body_deep_subset hb hf)
      (Token.count_bodyFragment hb hf)) h
  · cases h

/-- A token that makes a node alone fails as a parser of tokens may. -/
theorem literal_error (hg : g.Settles N n) {t : Token} (ht : t.Terminated) (hN : t.Numbered N)
    (hn : t.count ≤ n) {r : Except Failure Node} (hr : t.literal? g = some r) {e : Failure}
    (h : r = .error e) : e.OfParsing N := by
  subst h
  unfold Token.literal? at hr
  split at hr <;> simp only [Option.some.injEq, reduceCtorEq] at hr
  · rename_i hk
    unfold Token.integerNode at hr
    split at hr
    · cases hr
    · rename_i hv
      cases hr
      exact ⟨hN t List.mem_cons_self hk, hv⟩
  · exact stringNode_error hg ht hN hn hr
  · rename_i tag b _ hd
    exact heredocNode_error hg ht hN hn (by simp [Token.body?, hd]) hr

theorem string_settles (hg : g.Settles N n) (hs : s.Tidy N (n + 1))
    (hk : s.current.kind = .string) {s' : TokenStream} {Q : Node → TokenStream → Prop}
    (hQ : ∀ a, Q a s') : Settles N (liftM (s.current.stringNode g)) scope s' Q := by
  obtain ⟨ht, hN, hn⟩ := hs.current (by simp [hk])
  exact settles_lift (fun _ h => stringNode_error hg ht hN hn h) hQ

/-! ## Operands -/

theorem functionCall_settles (hg : g.Settles N n) (hs : s.Tidy N n) (t : Token) :
    Consumes N (functionCall g t) scope s := by
  simp only [Consumes, functionCall, settles_bind, settles_pure]
  refine (argumentList_settles hg hs).mono fun _ s₁ h => ?_
  exact (optionalLambda_settles hg (hs.reaches h.reaches)).mono fun _ _ k => h.trans k

theorem bareword_settles (hg : g.Settles N n) (place : BarewordPlace) (hs : s.Tidy N (n + 1))
    (hk : s.current.kind ≠ .endOfInput) : Consumes N (bareword g place) scope s := by
  have h := hs.advances_tail hk
  simp only [Consumes, bareword, settles_bind, settles_advance, settles_atTouching]
  split
  · exact h
  · simp only [settles_ite, settles_pure]
    refine ⟨fun _ => ?_, fun _ => h⟩
    exact (functionCall_settles hg (hs.advances h) _).mono fun _ _ k => h.trans k.reaches

/-- After the name of an attribute come an arrow and a value. -/
theorem attributeItem_settles (hg : g.Settles N n) (s : TokenStream) (hs : s.Tidy N n) :
    Consumes N (attributeItem g) scope s := by
  simp only [Consumes, attributeItem, settles_bind, settles_current, settles_ite, settles_advance,
    settles_pure, settles_unexpected, settles_expectAny, implies_true, and_true]
  have hrest (hk : s.current.kind ≠ .endOfInput)
      (_ : s.tail.current.kind ∈ [TokenKind.symbol .fatArrow, .symbol .plusArrow]) :
      Settles N g.value scope s.tail.tail fun _ s' => s.Advances s' := by
    have h₁ := hs.advances_tail hk
    have h₂ := hs.advances_past h₁.reaches (by rintro h; simp_all)
    exact (hg.value _ (hs.reaches h₂.reaches)).mono fun _ _ h => h₂.trans h.reaches
  refine ⟨fun hk => ?_, fun _ => ⟨fun hk => ?_, fun _ hk => ?_⟩⟩
  · refine hrest fun h => ?_
    simp [h, TokenKind.isKeyword] at hk
  · exact string_settles hg hs.succ hk fun _ => hrest (by simp [hk])
  · exact hrest (by simp [hk])

theorem attributes_settles (hg : g.Settles N n) (closes : TokenKind → Bool) (hs : s.Tidy N n) :
    Settles N (attributes g closes) scope s fun _ s' => s.Reaches s' :=
  commaList_settles (attributeItem_settles hg) hs

theorem collectorQuery_settles (hg : g.Settles N n) (closes : Symbol) (hs : s.Tidy N n) :
    Settles N (collectorQuery g closes) scope s fun _ s' => s.Reaches s' := by
  have close_reaches {s₁ : TokenStream} (h : s.Reaches s₁)
      (hc : s₁.current.kind = .symbol closes) : s.Reaches s₁.tail :=
    (hs.advances_past h (by simp [hc])).reaches
  simp only [collectorQuery, settles_bind, settles_atSymbol, settles_ite, settles_pure,
    settles_map, settles_withBraceBlocks, settles_expectSymbol]
  refine ⟨fun _ => close_reaches (.refl s), fun _ => ?_⟩
  exact (hg.expression _ hs).mono fun _ s₁ h => close_reaches h.reaches

theorem collector_settles (hg : g.Settles N n) (type : Node) (hs : s.Tidy N n)
    (hk : s.current.kind ≠ .endOfInput) : Consumes N (collector g type) scope s := by
  have h₁ := hs.advances_tail hk
  have hs₁ := hs.reaches h₁.reaches
  simp only [Consumes, collector, settles_bind, settles_advance, settles_atSymbol, settles_read,
    settles_ite, settles_advanceLeaf, settles_expectSymbol, settles_pure]
  refine (collectorQuery_settles hg _ hs₁).mono fun r s₂ h => ?_
  have h₂ := h₁.trans h
  refine ⟨fun ho => ?_, fun _ => h₂⟩
  have hs₂ := hs.reaches h₂.reaches
  have h₃ := hs₂.advances_tail (by simp_all)
  refine (attributes_settles hg _ (hs₂.reaches h₃.reaches)).mono fun _ s₃ h hc => ?_
  exact h₂.trans (hs₂.advances_past (h₃.trans h).reaches (by simp [hc])).reaches

theorem referenceOperand_settles (hg : g.Settles N n) (hs : s.Tidy N (n + 1))
    (hk : s.current.kind ≠ .endOfInput) : Consumes N (referenceOperand g) scope s := by
  have h₁ := hs.advances_tail hk
  have hs₁ := hs.advances h₁
  simp only [Consumes, referenceOperand, settles_bind, settles_advance, settles_atTouching,
    settles_atSymbol, settles_ite, settles_pure]
  refine ⟨fun _ => ?_, fun _ => ⟨fun hc => ?_, fun _ => h₁⟩⟩
  · exact (indexList_settles hg hs₁).mono fun _ _ h => h₁.trans h.reaches
  · refine (collector_settles hg _ hs₁ fun h => ?_).mono fun _ _ h => h₁.trans h.reaches
    simp [h] at hc

theorem array_settles (hg : g.Settles N n) (hs : s.Tidy N (n + 1))
    (hk : s.current.kind ≠ .endOfInput) : Consumes N (array g) scope s := by
  have h₁ := hs.advances_tail hk
  simp only [Consumes, array, settles_bind, settles_advance, settles_withBraceBlocks,
    settles_expectSymbol, settles_pure]
  refine (commaList_settles hg.value (hs.advances h₁)).mono fun _ s₁ h hc => ?_
  exact hs.advances_past (h₁.trans h).reaches (by simp [hc])

theorem methodCall_settles (hg : g.Settles N n) (receiver : Node) (hs : s.Tidy N n)
    (hk : s.current.kind ≠ .endOfInput) : Consumes N (methodCall g receiver) scope s := by
  have h₁ := hs.advances_tail hk
  have hs₁ := hs.reaches h₁.reaches
  simp only [Consumes, methodCall, ite_bind, settles_bind, settles_advanceLeaf, settles_current]
  rw [settles_ite]
  refine ⟨fun _ => settles_unexpected, fun hname => ?_⟩
  simp only [settles_bind, settles_advance, settles_atTouching, settles_pure]
  have h₂ := h₁.trans (hs₁.advances_tail fun h => by
    simp [h, TokenKind.isKeyword] at hname).reaches
  have hs₂ := hs.reaches h₂.reaches
  refine (optional_settles fun _ => argumentList_settles hg hs₂).mono fun _ s₃ h₃ => ?_
  refine (optionalLambda_settles hg (hs₂.reaches h₃)).mono fun _ _ h₄ => ?_
  exact h₂.trans (h₃.trans h₄)

theorem selectorItem_settles (hg : g.Settles N n) (seen : Bool) (s : TokenStream)
    (hs : s.Tidy N n) : Consumes N (selectorItem g seen) scope s := by
  simp only [Consumes, selectorItem, settles_bind, settles_current, settles_ite, settles_reject,
    Problem.kind, ProblemKind.isLexical, settles_expectSymbol, settles_pure, implies_true, true_and]
  refine (hg.value _ hs).mono fun _ s₁ h _ hk => ?_
  have h₁ := hs.advances_past h.reaches (by simp [hk])
  exact (hg.value _ (hs.reaches h₁.reaches)).mono fun _ _ h => h₁.trans h.reaches

theorem selector_settles (hg : g.Settles N n) (subject : Node) (hs : s.Tidy N n)
    (hk : s.current.kind ≠ .endOfInput) : Consumes N (selector g subject) scope s := by
  have h₁ := hs.advances_tail hk
  simp only [Consumes, selector, settles_bind, settles_advanceLeaf, settles_expectSymbol,
    settles_withBraceBlocks, settles_pure]
  intro ho
  have h₂ := hs.advances_past h₁.reaches (by simp [ho])
  refine (commaListWith_settles (selectorItem_settles hg) (hs.reaches h₂.reaches) false).mono
    fun _ s₃ h hc => ?_
  exact hs.advances_past (h₂.trans h).reaches (by simp [hc])

theorem indexAccess_settles (hg : g.Settles N n) (target : Node) (hs : s.Tidy N n) :
    Consumes N (indexAccess g target) scope s := by
  simp only [Consumes, indexAccess, settles_bind, settles_pure]
  exact indexList_settles hg hs

theorem postfixTail_settles (hg : g.Settles N n) (hs : s.Tidy N n) (operand : Node) :
    Settles N (postfixTail g operand) scope s fun _ s' => s.Reaches s' := by
  refine repeatFrom_settles hs (fun operand s₁ hs₁ => ?_) operand
  simp only [settles_bind, settles_atTouching, settles_atSymbol, settles_ite, settles_map,
    settles_pure, decide_eq_true_eq]
  refine ⟨fun _ => ?_, fun _ => ⟨fun hk => ?_, fun _ => ⟨fun hk => ?_, fun _ => .refl s₁⟩⟩⟩
  · exact indexAccess_settles hg operand hs₁
  · exact methodCall_settles hg operand hs₁ (by simp [hk])
  · exact selector_settles hg operand hs₁ (by simp [hk])

theorem hashKey_settles (hg : g.Settles N n) (hs : s.Tidy N n) :
    Consumes N (hashKey g) scope s := by
  simp only [Consumes, hashKey, settles_bind, settles_current, settles_second, settles_ite,
    settles_advance, settles_pure]
  refine ⟨fun hk => ?_, fun _ => ⟨fun hk => ?_, fun _ => hg.value _ hs⟩⟩
  · refine hs.advances_tail fun h => ?_
    simp [h, TokenKind.isPlainKeyword] at hk
  · refine (bareword_settles hg .hashKey hs.succ (by simp [hk])).mono fun _ s₁ h => ?_
    exact (postfixTail_settles hg (hs.reaches h.reaches) _).mono fun _ _ k => h.trans k

theorem hashEntry_settles (hg : g.Settles N n) (s : TokenStream) (hs : s.Tidy N n) :
    Consumes N (hashEntry g) scope s := by
  simp only [Consumes, hashEntry, settles_bind, settles_expectSymbol, settles_pure]
  refine (hashKey_settles hg hs).mono fun _ s₁ h hk => ?_
  have h₁ := hs.advances_past h.reaches (by simp [hk])
  exact (hg.value _ (hs.reaches h₁.reaches)).mono fun _ _ h => h₁.trans h.reaches

theorem hash_settles (hg : g.Settles N n) (hs : s.Tidy N (n + 1))
    (hk : s.current.kind ≠ .endOfInput) : Consumes N (hash g) scope s := by
  have h₁ := hs.advances_tail hk
  simp only [Consumes, hash, settles_bind, settles_advance, settles_withBraceBlocks,
    settles_expectSymbol, settles_pure]
  refine (commaList_settles (hashEntry_settles hg) (hs.advances h₁)).mono fun _ s₁ h hc => ?_
  exact hs.advances_past (h₁.trans h).reaches (by simp [hc])

theorem parenthesized_settles (hg : g.Settles N n) (hs : s.Tidy N (n + 1))
    (hk : s.current.kind ≠ .endOfInput) : Consumes N (parenthesized g) scope s := by
  have h₁ := hs.advances_tail hk
  simp only [Consumes, parenthesized, settles_bind, settles_advance, settles_withBraceBlocks,
    settles_expectSymbol, settles_pure]
  refine (hg.expression _ (hs.advances h₁)).mono fun _ s₁ h hc => ?_
  exact hs.advances_past (h₁.trans h.reaches).reaches (by simp [hc])

theorem primary_settles (hg : g.Settles N n) (place : BarewordPlace) (hs : s.Tidy N (n + 1)) :
    Consumes N (primary g place) scope s := by
  simp only [Consumes, primary, settles_bind, settles_current]
  split
  · rename_i r hr
    have hk : s.current.kind ≠ .endOfInput := fun h => by simp [Token.literal?, h] at hr
    obtain ⟨ht, hN, hn⟩ := hs.current hk
    simp only [settles_bind, settles_advance]
    exact settles_lift (fun _ h => literal_error hg ht hN hn hr h) fun _ => hs.advances_tail hk
  · split
    · rename_i hk
      exact bareword_settles hg place hs (by simp [hk])
    · rename_i hk
      exact referenceOperand_settles hg hs (by simp [hk])
    · rename_i hk
      exact array_settles hg hs (by simp [hk])
    · rename_i hk
      exact hash_settles hg hs (by simp [hk])
    · rename_i hk
      exact parenthesized_settles hg hs (by simp [hk])
    · exact settles_unexpected

theorem operand_settles (hg : g.Settles N n) (place : BarewordPlace) (hs : s.Tidy N (n + 1)) :
    Consumes N (operand g place) scope s := by
  simp only [Consumes, operand, settles_bind]
  refine (primary_settles hg place hs).mono fun _ s₁ h => ?_
  exact (postfixTail_settles hg (hs.advances h) _).mono fun _ _ k => h.trans k

/-! ## Operators -/

theorem unary_settles (hg : g.Settles N n) (place : BarewordPlace) (hs : s.Tidy N (n + 1)) :
    Consumes N (unary g place) scope s := by
  simp only [Consumes, unary, settles_bind, settles_current]
  split
  · exact operand_settles hg place hs
  · rename_i o ho
    have h₁ := hs.advances_tail fun h => by simp [h, Operator.unary?] at ho
    simp only [settles_bind, settles_advance, settles_pure]
    exact (hg.unary (hs.advances h₁)).mono fun _ _ h => h₁.trans h.reaches

theorem climb_settles (hg : g.Settles N n) (maxRank : Nat) (command : Bool) (hs : s.Tidy N n)
    (left : Node) :
    Settles N (climb g maxRank command left) scope s fun _ s' => s.Reaches s' := by
  refine repeatFrom_settles hs (fun left s₁ hs₁ => ?_) left
  simp only [settles_bind, settles_current]
  split
  · exact .refl s₁
  · rename_i o ho
    have h₁ := hs₁.advances_tail fun h => by simp [h, Operator.binary?] at ho
    have hs₂ := hs₁.reaches h₁.reaches
    simp only [settles_ite, settles_pure, settles_bind, settles_advance, settles_reject,
      Problem.kind, ProblemKind.isLexical, implies_true, true_and]
    refine ⟨fun _ => .refl s₁, fun _ => ⟨fun _ _ => ?_, fun _ => ?_⟩⟩
    · exact (hg.binary hs₂).mono fun _ _ h => h₁.trans h.reaches
    · exact (hg.binary hs₂).mono fun _ _ h => h₁.trans h.reaches

theorem binaryIn_settles (hg : g.Settles N n) (place : BarewordPlace) (maxRank : Nat)
    (command : Bool) (hs : s.Tidy N (n + 1)) :
    Consumes N (binaryIn g place maxRank command) scope s := by
  simp only [Consumes, binaryIn, settles_bind]
  refine (unary_settles hg place hs).mono fun _ s₁ h => ?_
  exact (climb_settles hg maxRank command (hs.advances h) _).mono fun _ _ k => h.trans k

theorem climbCommand_settles (hg : g.Settles N n) (maxRank : Nat) (hs : s.Tidy N n)
    (left : Node) :
    Settles N (climbCommand g maxRank left) scope s fun _ s' => s.Reaches s' := by
  refine repeatFrom_settles hs (fun left s₁ hs₁ => ?_) left
  simp only [settles_bind, settles_current]
  split
  · exact .refl s₁
  · rename_i o ho
    have h₁ := hs₁.advances_tail fun h => by simp [h, Operator.command?] at ho
    simp only [settles_ite, settles_pure, settles_bind, settles_advance]
    refine ⟨fun _ => .refl s₁, fun _ => ?_⟩
    exact (hg.command (hs₁.reaches h₁.reaches)).mono fun _ _ h => h₁.trans h.reaches

theorem command_settles (hg : g.Settles N n) (maxRank : Nat) (hs : s.Tidy N (n + 1)) :
    Consumes N (command g maxRank) scope s := by
  simp only [Consumes, command, settles_bind]
  refine (binaryIn_settles hg .value _ true hs).mono fun _ s₁ h => ?_
  exact (climbCommand_settles hg maxRank (hs.advances h) _).mono fun _ _ k => h.trans k

/-! ## Interpolations -/

theorem interpolatedExpression_settles (hg : g.Settles N n) (hs : s.Tidy N (n + 1)) :
    Settles N (interpolatedExpression g) scope s fun _ _ => True := by
  simp only [interpolatedExpression, settles_bind, settles_current, settles_second,
    settles_ite, settles_reject, Problem.kind, ProblemKind.isLexical, settles_advance,
    settles_pure, settles_unexpected, implies_true, true_and, and_self]
  intro hk
  have h₁ := hs.advances_tail hk
  have hs₁ := hs.advances h₁
  refine ⟨fun _ => ?_, fun _ => ?_⟩
  · refine (postfixTail_settles hg hs₁ _).mono fun _ s₂ h => ?_
    exact (climb_settles hg _ false (hs₁.reaches h) _).mono fun _ _ _ => trivial
  · exact (binaryIn_settles hg .value _ false hs).mono fun _ _ _ => trivial

/-- Terminated tokens before an end of input make a tidy stream. -/
theorem ofTokens_tidy {ts : List Token} {last : Token} (hlast : last.kind = .endOfInput)
    (ht : ∀ t ∈ ts, t.Terminated) (hN : ∀ t ∈ ts, t.Numbered N) (hn : Token.countAll ts < n) :
    (ofTokens (ts ++ [last])).Tidy N n := by
  refine ⟨⟨?_, ?_⟩, ?_, ?_⟩
  · simpa [ofTokens] using hlast
  · simpa [ofTokens] using ht
  · simpa [ofTokens] using hN
  · simpa [ofTokens] using hn

theorem interpolated_error (hg : g.Settles N n) {inner : List Token} {last : Token} {f : Failure}
    (hlast : last.kind = .endOfInput) (hc : ∀ t ∈ inner, t.Terminated)
    (hN : ∀ t ∈ inner, t.Numbered N) (hn : Token.countAll inner < n + 1)
    (h : interpolated g (inner ++ [last]) = .error f) : f.OfParsing N := by
  have hs := ofTokens_tidy hlast hc hN hn
  exact (interpolatedExpression_settles hg hs).runOn h

end Parse

end ManifestTree
