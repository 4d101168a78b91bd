import ManifestTree.Parse.Statement
import ManifestTree.Proofs.ReplayedExpressions
import ManifestTree.Proofs.StatementDerivation

/-!
# Statements replayed elsewhere

Statements are read elsewhere as they were read, if the grammar for the constructs within them is
replayed, and so the grammar itself is.  A statement that a brace closes is read elsewhere even where
other tokens come after it and none came before, because no token that begins a statement goes on
with one.
-/

namespace ManifestTree

/-- A closing brace is the last token of a statement of this kind. -/
def Kind.endsWithBrace : Kind → Bool
  | .if | .unless | .case | .declaration | .functionDeclaration | .nodeDefinition | .resourceCall
  | .resourceDefaults => true
  | _ => false

namespace Parse

open ManifestTree.Parser

open Viewed (look)

variable {k : Replay} {g g' : Grammar}

/-! ## Conditionals -/

theorem condition_replays (hg : g.Replays k g') :
    Parser.Replays k (condition g) (condition g') :=
  .withBraceBlocks false (command_takes hg _).toReplays

theorem optionalElse_replays (hg : g.Replays k g') :
    ReplaysWhole k (optionalElse g) (optionalElse g') := by
  refine (replaysWhole_nextIs (by simp) fun h => h.otherwise).bind fun b =>
    .ite Iff.rfl ?_ (.pure rfl)
  refine (replays_advance.bind_closes fun keyword => ?_).toReplaysWhole
  exact (body_closes hg).bind fun block => .pure (by simp [Shape.foldNodes])

theorem elsif_closes (hg : g.Replays k g') : Closes k (elsif g) (elsif g') := by
  refine replays_advance.bind_closes fun keyword => (condition_replays hg).bind_closes fun test => ?_
  exact (body_closes hg).bind fun block => .pure (by simp [Shape.foldNodes])

theorem ifStatement_closes (hg : g.Replays k g') :
    Closes k (ifStatement g) (ifStatement g') := by
  refine replays_advance.bind_closes fun keyword => (condition_replays hg).bind_closes fun test => ?_
  refine (body_closes hg).bind fun block => ?_
  refine (ReplaysWhole.untilClosed (by simp) (fun h => by simpa using h.elsif) (fun _ => ?_) rfl).bind
    fun ⟨elsifs, _⟩ => (optionalElse_replays hg).bind fun otherwise => .pure ?_
  · exact (elsif_closes hg).bind fun n => .pure (by simp)
  · cases otherwise <;> cases hlast : elsifs.getLast? <;>
      simp [Shape.foldNodes, List.getLast?_map, hlast]

theorem unlessStatement_closes (hg : g.Replays k g') :
    Closes k (unlessStatement g) (unlessStatement g') := by
  refine replays_advance.bind_closes fun keyword => (condition_replays hg).bind_closes fun test => ?_
  refine (body_closes hg).bind fun block => (optionalElse_replays hg).bind fun otherwise => .pure ?_
  cases otherwise <;> simp [Shape.foldNodes]

@[simp] theorem look_caseOptions (v : View) (options : List Node) (commas : List Leaf)
    (default : Option Token) :
    look v (⟨options, commas, default⟩ : CaseOptions) =
      ⟨options.map (Node.seen v), commas.map (Leaf.seen v), default.map (Token.seen v)⟩ := rfl

theorem caseOption_replays (hg : g.Replays k g') (seen : Bool) (o : CaseOptions) :
    Parser.Replays k (caseOption g seen o) (caseOption g' seen (look k.view o)) := by
  obtain ⟨options, commas, default⟩ := o
  refine .current_bind fun t _ => hg.value.bind fun option => .ite (by simp) ?_ (.pure (by simp))
  exact .ite (by simp) .reject (.pure (by simp))

theorem caseOptions_replays (hg : g.Replays k g') (seen : Bool) :
    Parser.Replays k (caseOptions g seen) (caseOptions g' seen) := by
  refine (caseOption_replays hg seen _).bind fun first => .repeatFrom (fun ⟨options, commas, d⟩ => ?_) rfl
  refine (replays_atSymbol .comma).bind fun b => .ite Iff.rfl ?_ (.pure (by simp))
  refine replays_advanceLeaf.bind fun comma => ?_
  exact (caseOption_replays hg seen ⟨options, comma :: commas, d⟩).map fun _ => rfl

theorem caseArm_replays (hg : g.Replays k g') (seen : Bool) :
    Parser.Replays k (caseArm g seen) (caseArm g' seen) := by
  refine .current_bind fun first _ => (caseOptions_replays hg seen).bind
    fun ⟨options, commas, default⟩ => (replays_expectSymbol .colon).bind fun colon => ?_
  refine (body_closes hg).replays.bind fun block => .pure ?_
  rcases default with _ | keyword
  · simp [Shape.foldNodes]
  · rcases options with _ | ⟨option, _ | ⟨more, options⟩⟩ <;> simp [Shape.foldNodes]

theorem caseStatement_closes (hg : g.Replays k g') :
    Closes k (caseStatement g) (caseStatement g') := by
  refine replays_advance.bind_closes fun keyword => ?_
  refine (Replays.withBraceBlocks false (binaryIn_takes hg .value _ _).toReplays).bind_closes fun subject => ?_
  refine (replays_expectSymbol .leftBrace).bind_closes fun opener => ?_
  refine (Replays.untilClosed (caseArm_replays hg) rfl).bind_closes fun ⟨arms, _⟩ => ?_
  exact (closes_expectSymbol .rightBrace).bind fun close => .pure (by simp [Shape.foldNodes])

/-! ## Composition -/

theorem consumedString_replays (hg : g.Replays k g') {t : Token} (ht : t.Known k.toTract)
    (hk : t.kind = .string) :
    Parser.Replays k (do
        let _ ← advance
        liftM (t.stringNode g))
      (do
        let _ ← advance
        liftM ((t.seen k.view).stringNode g')) :=
  replays_advance.bind fun _ => .lift fun n hn =>
    Token.stringNode_seen hg (ht.resolve_left (by simp [hk])) hn

theorem compositionArray_replays (hg : g.Replays k g') :
    Parser.Replays k (compositionArray g) (compositionArray g') := by
  refine replays_advance.bind fun opener => (replays_nextIs .string).bind fun ofStrings => ?_
  refine (Replays.commaList (.ite Iff.rfl (.expect_bind fun t ht hk => .lift fun n hn => ?_) ?_)).bind
    fun ⟨items, commas⟩ => ?_
  · exact Token.stringNode_seen hg (ht.resolve_left (by simp [hk])) hn
  · exact (replays_expect .name).bind fun t => .pure (by simp)
  · refine (replays_expectSymbol .rightBracket).bind fun close => .pure ?_
    cases ofStrings <;> simp [Shape.foldNodes]

theorem compositionTarget_replays (hg : g.Replays k g') :
    Parser.Replays k (compositionTarget g) (compositionTarget g') := by
  refine .peek fun t next next' ht hstart hnext => ?_
  rw [Token.seen_kind]
  split <;> rename_i hk
  · exact replays_advance.bind fun _ => .pure (by simp)
  · exact replays_advance.bind fun _ => .pure (by simp)
  · exact consumedString_replays hg ht hk
  · exact compositionArray_replays hg
  · refine .ite ?_ (referenceOperand_takes hg).toReplays .unexpected
    rcases hnext with rfl | h | ⟨hend, hopen⟩
    · simp [k.moves.start hstart]
    · cases hk.symm.trans h
    · simp [hend, hopen]
  · exact .unexpected

theorem composition_replays (hg : g.Replays k g') (verb : CompositionVerb) :
    Parser.Replays k (composition g verb) (composition g' verb) := by
  refine replays_advance.bind fun keyword => (compositionTarget_replays hg).commaSeparated.bind
    fun ⟨targets, commas⟩ => .pure ?_
  cases hlast : targets.getLast? <;> simp [Shape.foldNodes, List.getLast?_map, hlast]

/-! ## Declarations -/

theorem declaredName_replays : Parser.Replays k declaredName declaredName :=
  .current_bind fun t _ => .ite (by simp) .unexpected (replays_advance.bind fun _ => .pure (by simp))

theorem optionalParameters_replays (hg : g.Replays k g') :
    Parser.Replays k (optionalParameters g) (optionalParameters g') := by
  refine (replays_atSymbol .leftParen).bind fun b => .ite Iff.rfl ?_ (.pure rfl)
  exact (Replays.withBraceBlocks true (parameterList_replays hg _ _)).map fun _ => rfl

theorem optionalInheritance_replays :
    Parser.Replays k optionalInheritance optionalInheritance := by
  refine (replays_nextIs (.keyword .inherits)).bind fun b => .ite Iff.rfl ?_ (.pure rfl)
  refine replays_advance.bind fun keyword => declaredName_replays.bind fun parent => .pure ?_
  simp [Shape.foldNodes]

theorem declaration_closes (hg : g.Replays k g') (keyword : DeclarationKeyword) :
    Closes k (declaration g keyword) (declaration g' keyword) := by
  refine replays_advance.bind_closes fun t => declaredName_replays.bind_closes fun name => ?_
  refine (optionalParameters_replays hg).bind_closes fun parameters => ?_
  refine optionalInheritance_replays.bind_closes fun inheritance => ?_
  exact (body_closes hg).bind fun block => .pure (by simp [Shape.foldNodes])

theorem typeDeclaration_replays (hg : g.Replays k g') :
    Parser.Replays k (typeDeclaration g) (typeDeclaration g') := by
  refine replays_advance.bind fun keyword => (replays_expect .reference).bind fun name => ?_
  refine (replays_expectSymbol .equals).bind fun equals => ?_
  exact (typeExpression_replays hg).bind fun type => .pure (by simp [Shape.foldNodes])

theorem functionDeclaration_closes (hg : g.Replays k g') :
    Closes k (functionDeclaration g) (functionDeclaration g') := by
  simp only [functionDeclaration, ite_bind]
  refine replays_advance.bind_closes fun keyword => declaredName_replays.bind_closes fun name => ?_
  refine (optionalParameters_replays hg).bind_closes fun parameters => ?_
  refine (replays_atSymbol .rightShift).bind_closes fun b => ?_
  refine (optional_replays Iff.rfl replays_advanceLeaf).bind_closes fun arrow => ?_
  refine (optional_replays (by simp) (typeExpression_replays hg)).bind_closes fun returnType => ?_
  refine (body_closes hg).bind fun block => .pure ?_
  cases arrow <;> simp [Shape.foldNodes]

theorem nodeMatch_replays (hg : g.Replays k g') :
    Parser.Replays k (nodeMatch g) (nodeMatch g') := by
  refine .current_bind fun t ht => ?_
  rw [Token.seen_kind]
  split <;> rename_i hk
  · exact consumedString_replays hg ht hk
  · exact replays_advance.bind fun _ => .pure (by simp)
  · exact replays_advance.bind fun _ => .pure (by simp)
  · exact .unexpected

theorem nodeDefinition_closes (hg : g.Replays k g') :
    Closes k (nodeDefinition g) (nodeDefinition g') := by
  refine replays_advance.bind_closes fun keyword => ?_
  refine (nodeMatch_replays hg).commaSeparated.bind_closes fun ⟨hosts, commas⟩ => ?_
  exact (body_closes hg).bind fun block => .pure (by simp [Shape.foldNodes])

/-! ## Resources -/

theorem resourceBody_replays (hg : g.Replays k g') :
    Parser.Replays k (resourceBody g) (resourceBody g') := by
  refine (binaryIn_takes hg .resourceTitle _ _).toReplays.bind fun title => .current_bind fun colon _ => ?_
  refine .ite (by simp) .reject (.ite (by simp) .unexpected (replays_advance.bind fun _ => ?_))
  refine (attributes_replays hg _).bind fun ⟨items, commas⟩ => .pure ?_
  have hitem : ((items.map (Node.seen k.view)).getLast?.map Node.span).getD (colon.seen k.view).span =
      k.view.span ((items.getLast?.map Node.span).getD colon.span) := by
    cases hlast : items.getLast? <;> simp [List.getLast?_map, hlast]
  simp only [look_list, look_node, look_leaf, hitem]
  generalize (items.getLast?.map Node.span).getD colon.span = lastItem
  rw [List.getLast?_map]
  cases commas.getLast? with
  | none => simp [Shape.foldNodes]
  | some comma =>
    by_cases hlt : lastItem.stop < comma.span.stop <;> simp [Shape.foldNodes, Leaf.seen, hlt]

theorem resourceBodies_replays (hg : g.Replays k g') :
    Parser.Replays k (resourceBodies g) (resourceBodies g') := by
  refine .repeatFrom (fun ⟨bodies, semicolons⟩ => ?_) rfl
  refine (resourceBody_replays hg).bind fun n => (replays_atSymbol .semicolon).bind fun b =>
    .ite Iff.rfl ?_ (.pure (by simp))
  refine replays_advanceLeaf.bind fun semicolon => (replays_atSymbol .rightBrace).bind fun b =>
    .ite Iff.rfl (.pure (by simp)) (.pure (by simp))

/-- A closing brace with a message of its own is due. -/
theorem gives_close {problem : Token → Problem} {f : Token → Node} {scope : Scope}
    {s r : TokenStream} {n : Node} :
    Gives (do
      let close ← current
      if close.kind ≠ .symbol .rightBrace then reject (problem close) close.span
      else
        let _ ← advance
        return f close) scope s n r ↔
      Gives (do return f (← expectSymbol .rightBrace)) scope s n r := by
  simp only [gives_bind, gives_current, gives_ite, gives_reject, gives_advance, gives_expectSymbol,
    gives_pure, and_false, false_or]
  grind

theorem resourceCall_closes (hg : g.Replays k g') :
    Closes k (resourceCall g) (resourceCall g') := by
  simp only [resourceCall, ite_bind]
  refine .current_bind fun first _ => ?_
  refine (optional_replays (by simp) replays_advanceLeaf).bind_closes fun sign => ?_
  refine .current_bind fun t _ => .ite (by simp) (.of_never gives_unexpected) ?_
  refine replays_advance.bind_closes fun type => ?_
  refine (replays_expectSymbol .leftBrace).bind_closes fun opener => ?_
  refine (Replays.withBraceBlocks true (resourceBodies_replays hg)).bind_closes fun r => ?_
  obtain ⟨bodies, semicolons⟩ := r
  refine Closes.congr ?_ gives_close gives_close
  refine (closes_expectSymbol .rightBrace).bind fun close => .pure ?_
  cases sign <;> simp [Shape.foldNodes]

theorem resourceDefaults_closes (hg : g.Replays k g') :
    Closes k (resourceDefaults g) (resourceDefaults g') := by
  refine replays_advance.bind_closes fun t => (replays_expectSymbol .leftBrace).bind_closes
    fun opener => ?_
  refine (Replays.withBraceBlocks true (attributes_replays hg _)).bind_closes
    fun ⟨items, commas⟩ => ?_
  exact (closes_expectSymbol .rightBrace).bind fun close => .pure (by simp [Shape.foldNodes])

/-! ## Chains -/

theorem chainElement_replays (hg : g.Replays k g') :
    Parser.Replays k (chainElement g) (chainElement g') := by
  have helement (t : Token) : Takes k
      (do
        let element ← operand g .value
        if isChainElement element.kind then return element
        else reject (.notAChainElement t.text) t.span)
      (do
        let element ← operand g' .value
        if isChainElement element.kind then return element
        else reject (.notAChainElement (t.seen k.view).text) (t.seen k.view).span) :=
    (operand_takes hg .value).bind fun element => .ite (by simp) (.pure rfl) .reject
  refine .peek_or (fun t next next' _ _ hnext => .ite ?_ (resourceCall_closes hg).replays
    (helement t).toReplays) fun t next next' _ _ hend hopen => ?_
  · rcases hnext with rfl | hk
    · simp
    · simp [hk, beginsResource]
  · by_cases hsign : t.kind = .symbol .at ∨ t.kind = .symbol .atAt
    · left
      refine .ite ?_ (resourceCall_closes hg).replays (helement t).toReplays
      rcases hsign with h | h <;> simp [h, beginsResource]
    · right
      rw [if_neg]
      · exact (helement t).drains
      · rw [not_or] at hsign
        simp [beginsResource, hend, hsign]

theorem chain_replays (hg : g.Replays k g') (n : Node) :
    Parser.Replays k (chain g n) (chain g' (n.seen k.view)) := by
  refine .repeatFrom (fun left => .current_bind fun t _ => ?_) rfl
  rw [Token.seen_kind]
  cases chainArrow? t.kind with
  | none => exact .pure rfl
  | some arrow =>
    refine replays_advanceLeaf.bind fun sign => (chainElement_replays hg).bind fun right => .pure ?_
    simp [Shape.foldNodes]

/-! ## Statements -/

/-- The construct that two kinds of tokens begin. -/
def construct (g : Grammar) (kind next : TokenKind) : Parser Node :=
  match kind with
  | .keyword .if => ifStatement g
  | .keyword .unless => unlessStatement g
  | .keyword .case => caseStatement g
  | .keyword .include => composition g .include
  | .keyword .require => composition g .require
  | .keyword .contain => composition g .contain
  | .keyword .class => if next = .symbol .leftBrace then resourceCall g else declaration g .class
  | .keyword .define => declaration g .define
  | .keyword .plan => declaration g .plan
  | .keyword .type => typeDeclaration g
  | .keyword .function => functionDeclaration g
  | .keyword .node => nodeDefinition g
  | kind =>
    if beginsResource kind next then resourceCall g
    else if kind = .reference && next = .symbol .leftBrace then resourceDefaults g
    else command g Operator.commandRank

theorem unchained_eq (g : Grammar) : unchained g =
    current >>= fun t => second >>= fun next => construct g t.kind next.kind := by
  unfold unchained construct
  refine bind_congr fun t => bind_congr fun next => ?_
  cases t.kind with
  | keyword k =>
    cases k
    case «class» => exact if_congr decide_eq_true_iff rfl rfl
    all_goals rfl
  | _ => rfl

/-- No expression is of a kind that a brace ends. -/
theorem command_unbraced {maxRank : Nat} {scope : Scope} {s r : TokenStream} {n : Node}
    (hsound : g.Sound) (hs : s.Closed) (h : Gives (command g maxRank) scope s n r) :
    ¬ n.kind.endsWithBrace := by
  obtain ⟨⟨ts, -, hd⟩, -, -⟩ := command_yields hsound hs h
  have hkinds : ∀ kind ∈ Place.statementExpression.kinds, ¬ kind.endsWithBrace := by decide
  exact hkinds _ hd.kind_mem

/-- A construct is replayed, and even whole unless no brace ends it. -/
theorem construct_replays (hg : g.Replays k g') (kind next : TokenKind) :
    Closes k (construct g kind next) (construct g' kind next) ∨
      (Parser.Replays k (construct g kind next) (construct g' kind next) ∧
        ∀ {scope s n r}, g.Sound → s.Closed → Gives (construct g kind next) scope s n r →
          ¬ n.kind.endsWithBrace) := by
  have hcomposition (verb : CompositionVerb) {scope s n r}
      (h : Gives (composition g verb) scope s n r) : ¬ n.kind.endsWithBrace := by
    simp only [composition, gives_bind, gives_pure] at h
    obtain ⟨_, _, -, _, _, -, rfl, -⟩ := h
    exact Bool.false_ne_true
  unfold construct
  split
  · exact .inl (ifStatement_closes hg)
  · exact .inl (unlessStatement_closes hg)
  · exact .inl (caseStatement_closes hg)
  · exact .inr ⟨composition_replays hg _, fun _ _ => hcomposition _⟩
  · exact .inr ⟨composition_replays hg _, fun _ _ => hcomposition _⟩
  · exact .inr ⟨composition_replays hg _, fun _ _ => hcomposition _⟩
  · exact .inl (.ite Iff.rfl (resourceCall_closes hg) (declaration_closes hg _))
  · exact .inl (declaration_closes hg _)
  · exact .inl (declaration_closes hg _)
  · refine .inr ⟨typeDeclaration_replays hg, fun _ _ h => ?_⟩
    simp only [typeDeclaration, gives_bind, gives_pure] at h
    obtain ⟨_, _, -, _, _, -, _, _, -, _, _, -, rfl, -⟩ := h
    exact Bool.false_ne_true
  · exact .inl (functionDeclaration_closes hg)
  · exact .inl (nodeDefinition_closes hg)
  · split
    · exact .inl (resourceCall_closes hg)
    split
    · exact .inl (resourceDefaults_closes hg)
    · exact .inr ⟨(command_takes hg _).toReplays, fun hsound hs h => command_unbraced hsound hs h⟩

/-- Which token comes after a closing brace does not matter. -/
theorem construct_next (g : Grammar) {kind next next' : TokenKind}
    (h : next' = next ∨ kind = .symbol .rightBrace) :
    construct g kind next' = construct g kind next := by
  rcases h with rfl | rfl <;> rfl

/-- A brace after a token begins another construct than the end of input only where a name, a
reference or the keyword `class` comes before it. -/
theorem construct_opens (kind : TokenKind) :
    (∀ g, construct g kind (.symbol .leftBrace) = construct g kind .endOfInput) ∨
      (∀ g, construct g kind .endOfInput = declaration g .class) ∨
      ∀ g, construct g kind .endOfInput = command g Operator.commandRank := by
  unfold construct
  split
  any_goals exact .inl fun _ => rfl
  · exact .inr (.inl fun _ => rfl)
  · by_cases hsign : kind = .symbol .at ∨ kind = .symbol .atAt
    · rcases hsign with rfl | rfl
      · exact .inl fun _ => rfl
      · exact .inl fun _ => rfl
    · rw [not_or] at hsign
      exact .inr (.inr fun g => by simp [beginsResource, hsign])

theorem declaration_more {keyword : DeclarationKeyword} {scope : Scope} {s r : TokenStream}
    {n : Node} {tract : Tract} (hs : s.Fit tract) (htail : s.rest.tail = []) :
    ¬ Gives (declaration g keyword) scope s n r := by
  intro h
  simp only [declaration, declaredName, gives_bind, gives_advance, gives_current, gives_ite,
    gives_unexpected, and_false, false_or] at h
  obtain ⟨_, _, ⟨-, rfl⟩, _, _, ⟨_, _, ⟨rfl, rfl⟩, hname, -⟩, -⟩ := h
  rw [hs.tail.current_of_nil (by rw [TokenStream.tail_rest, htail])] at hname
  exact hname fun h => by cases h

theorem unchained_replays (hg : g.Replays k g') :
    Parser.Replays k (unchained g) (unchained g') := by
  have hconstruct (kind next : TokenKind) :
      Parser.Replays k (construct g kind next) (construct g' kind next) :=
    (construct_replays hg _ _).elim (fun h => h.replays) And.left
  rw [unchained_eq, unchained_eq]
  refine .peek_or (fun t next next' _ _ hnext => ?_) fun t next next' _ _ hend hopen => ?_
  · rw [Token.seen_kind, construct_next g' (hnext.imp_left fun h => by rw [h, Token.seen_kind])]
    exact hconstruct _ _
  · rw [Token.seen_kind, hend, hopen]
    rcases construct_opens t.kind with h | h | h
    · exact .inl (h g' ▸ hconstruct _ _)
    · rw [h g]
      exact .inr fun hs htail hn => (declaration_more hs htail hn).elim
    · rw [h g]
      exact .inr (command_takes hg _).drains

theorem statement_replays (hg : g.Replays k g') :
    Parser.Replays k (statement g) (statement g') :=
  (unchained_replays hg).bind fun n => .ite (by simp) (chain_replays hg n) (.pure rfl)

/-- The grammar is replayed by one with a bound that is as high. -/
theorem grammar_replays {n m : Nat} (h : n ≤ m) (k : Replay) :
    (grammar n).Replays k (grammar m) := by
  induction n generalizing m k with
  | zero =>
    exact {
      binary := fun _ _ => .of_never gives_fail
      command := fun _ => .of_never gives_fail
      unary := .of_never gives_fail
      type := .of_never gives_fail
      statement := .of_never gives_fail
      interpolated := fun _ _ h => by cases h }
  | succ n ih =>
    obtain ⟨m, rfl⟩ := Nat.exists_eq_succ_of_ne_zero (Nat.ne_zero_of_lt h)
    have ih := fun k => ih (Nat.le_of_succ_le_succ h) k
    exact {
      binary := fun _ _ => (binaryIn_takes (ih k) .value _ _).toReplays
      command := fun _ => (command_takes (ih k) _).toReplays
      unary := (unary_takes (ih k) .value).toReplays
      type := typeExpression_replays (ih k)
      statement := statement_replays (ih k)
      interpolated := fun hf hp h => interpolated_seen (fun _ => ih _) hf hp h }

/-! ## Statements that a brace ends -/

section

variable {scope : Scope} {s s' r : TokenStream} {n : Node}

theorem unchained_gives (hg : g.Replays k g') (hsound : g.Sound) (hs : s.Alike k s')
    (hc : s.Closed) (h : Gives (unchained g) scope s n r) (hn : n.kind.endsWithBrace) :
    ∃ r', Gives (unchained g') scope s' (n.seen k.view) r' ∧ r.Alike k r' := by
  simp only [unchained_eq, gives_bind, gives_current, gives_second] at h ⊢
  obtain ⟨_, _, ⟨rfl, rfl⟩, _, _, ⟨rfl, rfl⟩, h⟩ := h
  rcases construct_replays hg s.current.kind s.second.kind with hcloses | ⟨-, hnever⟩
  · have hleaves : k.Leaves s := .inr fun hnil => hcloses.starves hs.fit hnil h
    obtain ⟨r', h', hr⟩ := hcloses.gives hs h
    refine ⟨r', ⟨_, _, ⟨rfl, rfl⟩, _, _, ⟨rfl, rfl⟩, ?_⟩, hr⟩
    have hsame : construct g' s.current.kind s'.second.kind =
        construct g' s.current.kind s.second.kind := by
      rcases hs.second hleaves with h' | h' | hopens
      · rw [h', Token.seen_kind]
      · exact construct_next g' (.inr h')
      · rw [hopens.ends, hopens.opens]
        rw [hopens.ends] at h
        rcases construct_opens s.current.kind with hc' | hc' | hc'
        · exact hc' g'
        · exact (declaration_more hs.fit hopens.single (hc' g ▸ h)).elim
        · exact (command_unbraced hsound hc (hc' g ▸ h) hn).elim
    rw [hs.current hleaves, Token.seen_kind, hsame]
    exact h'
  · exact absurd hn (hnever hsound hc h)

/-- A chain of its first element has no arrow. -/
theorem chain_gives_same {first : Node} (h : Gives (chain g first) scope s n r)
    (hn : n.kind ≠ .relation) : n = first ∧ r = s ∧ chainArrow? s.current.kind = none := by
  have hloop : n.kind = .relation ∨ (n = first ∧ r = s ∧ chainArrow? s.current.kind = none) := by
    refine repeatFrom_invariant (fun m t => m.kind = .relation ∨ (m = first ∧ t = s))
      (fun m t => m.kind = .relation ∨ (m = first ∧ t = s ∧ chainArrow? s.current.kind = none))
      ?_ ?_ (.inr ⟨rfl, rfl⟩) h
    · intro m t m' t' _ hstep
      simp only [gives_bind, gives_current] at hstep
      obtain ⟨_, _, ⟨rfl, rfl⟩, hstep⟩ := hstep
      split at hstep
      · simp at hstep
      · simp only [gives_bind, gives_pure, Sum.inl.injEq] at hstep
        obtain ⟨_, _, -, _, _, -, rfl, -⟩ := hstep
        exact .inl rfl
    · intro m t m' t' hm hstep
      simp only [gives_bind, gives_current] at hstep
      obtain ⟨_, _, ⟨rfl, rfl⟩, hstep⟩ := hstep
      split at hstep
      · rename_i harrow
        simp only [gives_pure, Sum.inr.injEq] at hstep
        obtain ⟨rfl, rfl⟩ := hstep
        refine hm.imp_right ?_
        rintro ⟨hm, ht⟩
        exact ⟨hm, ht, by rwa [← ht]⟩
      · simp at hstep
  exact hloop.resolve_left hn

/-- A statement that a brace ends is replayed whole. -/
theorem statement_gives_whole (hg : g.Replays k g') (hsound : g.Sound) (hs : s.Alike k s')
    (hc : s.Closed) (h : Gives (statement g) scope s n r) (hn : n.kind.endsWithBrace) :
    ∃ r', Gives (statement g') scope s' (n.seen k.view) r' ∧ r.Alike k r' := by
  simp only [statement, gives_bind] at h ⊢
  obtain ⟨first, s₁, hfirst, h⟩ := h
  obtain ⟨rfl, rfl, harrow⟩ : n = first ∧ r = s₁ ∧
      (isChainElement first.kind → chainArrow? s₁.current.kind = none) := by
    rcases gives_ite.mp h with ⟨hk, h⟩ | ⟨hk, h⟩
    · obtain ⟨rfl, rfl, harrow⟩ := chain_gives_same h (by rintro hk; rw [hk] at hn; cases hn)
      exact ⟨rfl, rfl, fun _ => harrow⟩
    · obtain ⟨rfl, rfl⟩ := gives_pure.mp h
      exact ⟨rfl, rfl, fun h => absurd h hk⟩
  obtain ⟨r', hfirst', hr⟩ := unchained_gives hg hsound hs hc hfirst hn
  refine ⟨r', ⟨_, _, hfirst', ?_⟩, hr⟩
  rw [Node.seen_kind]
  split
  · rename_i hk
    refine repeatFrom_stops ?_
    have harrow' : chainArrow? r'.current.kind = none := by
      rcases hr.current_or with h | ⟨-, h, hunlinked⟩
      · rw [h, Token.seen_kind, harrow hk]
      · rw [h]
        exact hunlinked.arrow
    simp only [gives_bind, gives_current]
    exact ⟨_, _, ⟨rfl, rfl⟩, by simp [harrow']⟩
  · exact gives_pure.mpr ⟨rfl, rfl⟩

end

end Parse

end ManifestTree
