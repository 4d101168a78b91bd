import ManifestTree.Proofs.CommandForms

/-!
# Braces that open blocks

A brace after a call opens a block and one after a collector opens its attributes, but not in a
condition, where it opens the body.  Within brackets of any kind it does again.  An expression in
which no brace opens a block outside brackets is therefore read the same in both.
-/

namespace ManifestTree

open Parse ManifestTree.Parser

/-! ## Bare expressions -/

namespace Node

/-- The node begins with a brace that opens a block, or it ends with one. -/
def opensBlock (n : Node) : Bool :=
  match n.shape with
  | .lambda none _ | .collector _ _ _ (some _) => true
  | _ => false

/-- No brace opens a block outside brackets. -/
def Bare (n : Node) : Prop := ∀ m, n.Exposes m → ¬ m.opensBlock

variable {n e : Node}

theorem Bare.opensBlock (h : n.Bare) : ¬ n.opensBlock := h n (.self n)

theorem Bare.element (h : n.Bare) (he : e ∈ n.shape.unbracketed) : e.Bare :=
  fun m hm => h m (.step he hm)

theorem bare_of_unbracketed (hn : ¬ n.opensBlock) (h : ∀ e ∈ n.shape.unbracketed, e.Bare) :
    n.Bare := by
  intro m hm
  cases hm with
  | self => exact hn
  | step he hm => exact h _ he m hm

end Node

/-! ## Parsers that read alike -/

namespace Parser

variable {α β σ : Type}

/-- The parser reads the same whether or not a brace may open a block where it begins. -/
structure Unscoped (p : Parser α) : Prop where
  gives : ∀ {scope scope' s a r}, Gives p scope s a r → Gives p scope' s a r

theorem Unscoped.bind {p : Parser α} {f : α → Parser β} (hp : Unscoped p)
    (hf : ∀ a, Unscoped (f a)) : Unscoped (p >>= f) where
  gives h := by
    obtain ⟨a, s₁, ha, hb⟩ := gives_bind.mp h
    exact gives_bind.mpr ⟨a, s₁, hp.gives ha, (hf a).gives hb⟩

theorem Unscoped.pure {a : α} : Unscoped (Pure.pure a : Parser α) :=
  ⟨fun h => gives_pure.mpr (gives_pure.mp h)⟩

theorem Unscoped.map {p : Parser α} {f : α → β} (hp : Unscoped p) : Unscoped (f <$> p) := by
  rw [map_eq_pure_bind]
  exact hp.bind fun _ => .pure

theorem Unscoped.ite {c : Prop} [Decidable c] {p q : Parser α} (hp : Unscoped p)
    (hq : Unscoped q) : Unscoped (if c then p else q) := by
  split
  · exact hp
  · exact hq

theorem Unscoped.of_never {p : Parser α} (h : ∀ {scope s a r}, ¬ Gives p scope s a r) :
    Unscoped p := ⟨fun hp => (h hp).elim⟩

theorem unscoped_withBraceBlocks (allowed : Bool) (p : Parser α) :
    Unscoped (withBraceBlocks allowed p) := ⟨id⟩

theorem unscoped_current : Unscoped current := ⟨fun h => gives_current.mpr (gives_current.mp h)⟩

theorem unscoped_advance : Unscoped advance := ⟨fun h => gives_advance.mpr (gives_advance.mp h)⟩

theorem unscoped_advanceLeaf : Unscoped advanceLeaf :=
  ⟨fun h => gives_advanceLeaf.mpr (gives_advanceLeaf.mp h)⟩

theorem unscoped_atSymbol (x : Symbol) : Unscoped (atSymbol x) :=
  ⟨fun h => gives_atSymbol.mpr (gives_atSymbol.mp h)⟩

theorem unscoped_atTouching (x : Symbol) : Unscoped (atTouching x) :=
  ⟨fun h => gives_atTouching.mpr (gives_atTouching.mp h)⟩

theorem unscoped_expect (kind : TokenKind) : Unscoped (expect kind) :=
  ⟨fun h => gives_expect.mpr (gives_expect.mp h)⟩

theorem unscoped_iterate {step : σ → Parser (σ ⊕ α)} (hstep : ∀ x, Unscoped (step x)) (fuel : Nat)
    (x : σ) : Unscoped (iterate step fuel x) := by
  induction fuel generalizing x with
  | zero => exact .of_never gives_fail
  | succ fuel ih =>
    refine (hstep x).bind fun y => ?_
    cases y with
    | inl y => exact ih y
    | inr a => exact .pure

theorem Unscoped.repeatFrom {step : σ → Parser (σ ⊕ α)} (hstep : ∀ x, Unscoped (step x)) (x : σ) :
    Unscoped (Parser.repeatFrom step x) where
  gives h := by
    simp only [Parser.repeatFrom, gives_bind, gives_get] at h ⊢
    obtain ⟨_, _, hget, h⟩ := h
    exact ⟨_, _, hget, (unscoped_iterate hstep _ x).gives h⟩

theorem Unscoped.commaList {closes : TokenKind → Bool} {item : Parser α} (hitem : Unscoped item) :
    Unscoped (Parser.commaList closes item) := by
  refine .repeatFrom (fun ⟨items, commas, _⟩ => unscoped_current.bind fun t => .ite .pure ?_) _
  refine (hitem.bind fun _ => .pure).bind fun _ => (unscoped_atSymbol .comma).bind fun b => ?_
  exact .ite (unscoped_advanceLeaf.bind fun _ => .pure) .pure

/-- Where an answer of the parser is as in `B`, the parser answers the same where no brace may open
a block, and `P` holds. -/
structure Unblocks (P : Prop) (p : Parser α) (B : α → Prop) : Prop where
  gives : ∀ {s a r}, Gives p ⟨true⟩ s a r → B a → P ∧ Gives p ⟨false⟩ s a r

variable {P : Prop} {A : α → Prop} {B : β → Prop}

theorem Unscoped.unblocks {p : Parser α} (h : Unscoped p) : Unblocks P p fun _ => P :=
  ⟨fun hp hP => ⟨hP, h.gives hp⟩⟩

theorem Unblocks.pure {a : α} (h : A a → P) : Unblocks P (Pure.pure a) A where
  gives ha hA := by
    obtain ⟨rfl, rfl⟩ := gives_pure.mp ha
    exact ⟨h hA, gives_pure.mpr ⟨rfl, rfl⟩⟩

theorem Unblocks.frame {p : Parser α} (h : Unblocks True p A) : Unblocks P p fun a => P ∧ A a :=
  ⟨fun hp ⟨hP, hA⟩ => ⟨hP, (h.gives hp hA).2⟩⟩

theorem Unblocks.bind {p : Parser α} {f : α → Parser β} (hp : Unblocks P p A)
    (hf : ∀ a, Unblocks (A a) (f a) B) : Unblocks P (p >>= f) B where
  gives h hB := by
    obtain ⟨a, s₁, ha, h⟩ := gives_bind.mp h
    obtain ⟨hA, h⟩ := (hf a).gives h hB
    obtain ⟨hP, ha⟩ := hp.gives ha hA
    exact ⟨hP, gives_bind.mpr ⟨a, s₁, ha, h⟩⟩

theorem Unblocks.map {p : Parser α} {f : α → β} (hp : Unblocks P p (B ∘ f)) :
    Unblocks P (f <$> p) B := by
  rw [map_eq_pure_bind]
  exact hp.bind fun _ => .pure id

theorem Unblocks.ite {c : Prop} [Decidable c] {p q : Parser α} (hp : Unblocks P p A)
    (hq : Unblocks P q A) : Unblocks P (if c then p else q) A := by
  split
  · exact hp
  · exact hq

theorem Unblocks.of_never {p : Parser α} (h : ∀ {scope s a r}, ¬ Gives p scope s a r) :
    Unblocks P p A := ⟨fun hp => (h hp).elim⟩

theorem unblocks_iterate {C : σ → Prop} {step : σ → Parser (σ ⊕ α)}
    (hstep : ∀ x, Unblocks (C x) (step x) (Sum.elim C A)) (fuel : Nat) (x : σ) :
    Unblocks (C x) (iterate step fuel x) A := by
  induction fuel generalizing x with
  | zero => exact .of_never gives_fail
  | succ fuel ih =>
    refine (hstep x).bind fun y => ?_
    cases y with
    | inl y => exact ih y
    | inr a => exact .pure id

theorem Unblocks.repeatFrom {C : σ → Prop} {step : σ → Parser (σ ⊕ α)}
    (hstep : ∀ x, Unblocks (C x) (step x) (Sum.elim C A)) (x : σ) :
    Unblocks (C x) (Parser.repeatFrom step x) A where
  gives h hA := by
    simp only [Parser.repeatFrom, gives_bind, gives_get] at h ⊢
    obtain ⟨_, _, ⟨rfl, rfl⟩, h⟩ := h
    obtain ⟨hx, h⟩ := (unblocks_iterate hstep _ x).gives h hA
    exact ⟨hx, _, _, ⟨rfl, rfl⟩, h⟩

end Parser

/-- The parsers of a grammar read bare expressions where no brace may open a block. -/
structure Grammar.Unblocks (g : Grammar) : Prop where
  binary : ∀ maxRank command, Parser.Unblocks True (g.binary maxRank command) Node.Bare
  command : ∀ maxRank, Parser.Unblocks True (g.command maxRank) Node.Bare
  unary : Parser.Unblocks True g.unary Node.Bare

namespace Parse

variable {g : Grammar} {scope : Scope} {s r : TokenStream} {b : Node}

/-! ## Constructs between brackets -/

theorem unscoped_indexList (g : Grammar) : Unscoped (indexList g) :=
  (unscoped_expect _).bind fun _ => (unscoped_withBraceBlocks _ _).bind fun _ =>
    (unscoped_expect _).bind fun _ => .pure

theorem unscoped_argumentList (g : Grammar) : Unscoped (argumentList g) :=
  (unscoped_expect _).bind fun _ => (unscoped_withBraceBlocks _ _).bind fun _ =>
    (unscoped_expect _).bind fun _ => .pure

theorem unscoped_array (g : Grammar) : Unscoped (array g) :=
  unscoped_advance.bind fun _ => (unscoped_withBraceBlocks _ _).bind fun _ =>
    (unscoped_expect _).bind fun _ => .pure

theorem unscoped_hash (g : Grammar) : Unscoped (hash g) :=
  unscoped_advance.bind fun _ => (unscoped_withBraceBlocks _ _).bind fun _ =>
    (unscoped_expect _).bind fun _ => .pure

theorem unscoped_parenthesized (g : Grammar) : Unscoped (parenthesized g) :=
  unscoped_advance.bind fun _ => (unscoped_withBraceBlocks _ _).bind fun _ =>
    (unscoped_expect _).bind fun _ => .pure

theorem unscoped_selector (g : Grammar) (subject : Node) : Unscoped (selector g subject) :=
  unscoped_advanceLeaf.bind fun _ => (unscoped_expect _).bind fun _ =>
    (unscoped_withBraceBlocks _ _).bind fun _ => (unscoped_expect _).bind fun _ => .pure

theorem unscoped_collectorQuery (g : Grammar) (closes : Symbol) :
    Unscoped (collectorQuery g closes) := by
  simp only [collectorQuery, ite_bind]
  exact (unscoped_atSymbol _).bind fun _ =>
    (Unscoped.ite .pure (unscoped_withBraceBlocks _ _).map).bind fun _ =>
      (unscoped_expect _).bind fun _ => .pure

theorem unscoped_typeExpression (g : Grammar) : Unscoped (typeExpression g) := by
  refine (unscoped_expect _).bind fun _ => (unscoped_atSymbol _).bind fun _ => .ite ?_ .pure
  exact unscoped_advanceLeaf.bind fun _ => (unscoped_withBraceBlocks _ _).bind fun _ =>
    (unscoped_expect _).bind fun _ => .pure

theorem unscoped_parameter (g : Grammar) : Unscoped (parameter g) := by
  simp only [parameter, ite_bind]
  refine unscoped_current.bind fun _ => (Unscoped.ite (unscoped_typeExpression g).map .pure).bind
    fun _ => (unscoped_atSymbol _).bind fun _ => (Unscoped.ite unscoped_advanceLeaf.map .pure).bind
      fun _ => unscoped_current.bind fun _ => .ite (.of_never gives_unexpected) ?_
  refine unscoped_advance.bind fun _ => (unscoped_atSymbol _).bind fun _ => .ite ?_ .pure
  exact unscoped_advanceLeaf.bind fun _ => (unscoped_withBraceBlocks _ _).bind fun _ => .pure

theorem unscoped_body (g : Grammar) : Unscoped (body g) := by
  refine unscoped_current.bind fun _ => .ite (.of_never gives_reject) ?_
  exact unscoped_advance.bind fun _ => (unscoped_withBraceBlocks _ _).bind fun _ =>
    (unscoped_expect _).bind fun _ => .pure

theorem unscoped_lambda (g : Grammar) : Unscoped (lambda g) := by
  simp only [lambda, ite_bind]
  have hparameters : Unscoped (parameterList g .pipe .pipe) :=
    (unscoped_expect _).bind fun _ => (unscoped_parameter g).commaList.bind fun _ =>
      (unscoped_expect _).bind fun _ => .pure
  exact (unscoped_atSymbol _).bind fun _ => (Unscoped.ite hparameters.map .pure).bind fun _ =>
    (unscoped_body g).bind fun _ => .pure

/-! ## Blocks -/

/-- A block without parameters begins with its brace. -/
theorem lambda_opensBlock (h : Gives (lambda g) scope s b r) (hs : s.current.kind ≠ .symbol .pipe) :
    b.opensBlock := by
  simp only [lambda, gives_bind, gives_atSymbol, gives_ite, gives_map, gives_pure] at h
  obtain ⟨_, _, ⟨rfl, rfl⟩, h⟩ := h
  simp only [decide_eq_true_eq, hs, false_and, not_false_eq_true, true_and, false_or] at h
  obtain ⟨_, _, ⟨rfl, rfl⟩, _, _, -, rfl, -⟩ := h
  rfl

theorem optionalLambda_unblocks (g : Grammar) :
    Unblocks True (optionalLambda g) fun block => ∀ b ∈ block.toList, b.Bare where
  gives {s block r} h hbare := by
    refine ⟨trivial, ?_⟩
    unfold optionalLambda at h ⊢
    obtain ⟨p, s₁, hp, h⟩ := gives_bind.mp h
    refine gives_bind.mpr ⟨p, s₁, (unscoped_atSymbol _).gives hp, ?_⟩
    obtain ⟨rfl, rfl⟩ := gives_atSymbol.mp hp
    rcases gives_ite.mp h with ⟨hpipe, h⟩ | ⟨hpipe, h⟩
    · exact gives_ite.mpr (.inl ⟨hpipe, (unscoped_lambda g).map.gives h⟩)
    refine gives_ite.mpr (.inr ⟨hpipe, ?_⟩)
    simp only [gives_bind, gives_atSymbol, gives_read, gives_ite, gives_map, gives_pure] at h ⊢
    obtain ⟨_, _, ⟨rfl, rfl⟩, _, _, ⟨rfl, rfl⟩, ⟨-, b, hlambda, rfl⟩ | ⟨-, rfl, rfl⟩⟩ := h
    · exact absurd (lambda_opensBlock hlambda (by simpa using hpipe))
        (hbare b List.mem_cons_self).opensBlock
    · exact ⟨_, _, ⟨rfl, rfl⟩, _, _, ⟨rfl, rfl⟩, .inr ⟨by simp, rfl, rfl⟩⟩

/-! ## Operands -/

theorem functionCall_unblocks (g : Grammar) (t : Token) :
    Unblocks True (functionCall g t) Node.Bare := by
  refine (unscoped_argumentList g).unblocks.bind fun arguments => ?_
  refine (optionalLambda_unblocks g).bind fun block => .pure fun hn b hb => ?_
  exact hn.element (List.mem_cons_of_mem _ hb)

theorem bareword_unblocks (g : Grammar) (place : BarewordPlace) :
    Unblocks True (bareword g place) Node.Bare := by
  refine unscoped_advance.unblocks.bind fun t => (unscoped_atTouching _).unblocks.bind fun b => ?_
  cases place.reading (t.text.contains ':') b with
  | word => exact .pure fun _ => trivial
  | naming => exact .ite (functionCall_unblocks g t) (.pure fun _ => trivial)

theorem collector_unblocks (g : Grammar) (type : Node) :
    Unblocks True (collector g type) Node.Bare := by
  refine unscoped_advance.unblocks.bind fun opener => ?_
  refine (unscoped_collectorQuery g _).unblocks.bind fun ⟨query, closer⟩ => ⟨fun {s n r} h hn => ?_⟩
  refine ⟨trivial, ?_⟩
  simp only [gives_bind, gives_atSymbol, gives_read, gives_ite, gives_pure] at h ⊢
  obtain ⟨_, _, ⟨rfl, rfl⟩, _, _, ⟨rfl, rfl⟩, h⟩ := h
  refine ⟨_, _, ⟨rfl, rfl⟩, _, _, ⟨rfl, rfl⟩, ?_⟩
  rcases h with ⟨-, _, _, -, _, _, -, _, _, -, rfl, -⟩ | ⟨-, rfl, rfl⟩
  · exact absurd rfl hn.opensBlock
  · exact .inr ⟨by simp, rfl, rfl⟩

theorem referenceOperand_unblocks (g : Grammar) :
    Unblocks True (referenceOperand g) Node.Bare := by
  refine unscoped_advance.unblocks.bind fun t => (unscoped_atTouching _).unblocks.bind fun b => ?_
  refine .ite ((unscoped_indexList g).unblocks.bind fun indices => .pure fun _ => trivial) ?_
  refine (unscoped_atSymbol _).unblocks.bind fun _ => ?_
  refine (unscoped_atSymbol _).unblocks.bind fun _ => ?_
  exact .ite (collector_unblocks g _) (.pure fun _ => trivial)

theorem primary_unblocks (g : Grammar) (place : BarewordPlace) :
    Unblocks True (primary g place) Node.Bare := by
  have bracketed {p : Parser Node} (h : Unscoped p) : Unblocks True p Node.Bare :=
    ⟨fun hp _ => ⟨trivial, h.gives hp⟩⟩
  refine unscoped_current.unblocks.bind fun t => ?_
  cases t.literal? g with
  | some node =>
    exact bracketed (unscoped_advance.bind fun _ => ⟨fun h => gives_lift.mpr (gives_lift.mp h)⟩)
  | none =>
    dsimp only
    split
    · exact bareword_unblocks g place
    · exact referenceOperand_unblocks g
    · exact bracketed (unscoped_array g)
    · exact bracketed (unscoped_hash g)
    · exact bracketed (unscoped_parenthesized g)
    · exact .of_never gives_unexpected

theorem methodCall_unblocks (g : Grammar) (receiver : Node) :
    Unblocks receiver.Bare (methodCall g receiver) Node.Bare := by
  simp only [methodCall, ite_bind]
  refine unscoped_advanceLeaf.unblocks.bind fun dot => unscoped_current.unblocks.bind fun t => ?_
  refine .ite (.of_never gives_unexpected) (unscoped_advance.unblocks.bind fun name => ?_)
  refine (unscoped_atTouching _).unblocks.bind fun b => ?_
  refine (Unscoped.ite (unscoped_argumentList g).map .pure).unblocks.bind fun arguments => ?_
  refine (optionalLambda_unblocks g).frame.bind fun block => .pure fun hn => ?_
  exact ⟨hn.element List.mem_cons_self, fun b hb =>
    hn.element (List.mem_cons_of_mem _ (List.mem_cons_of_mem _ hb))⟩

theorem indexAccess_unblocks (g : Grammar) (target : Node) :
    Unblocks target.Bare (indexAccess g target) Node.Bare :=
  (unscoped_indexList g).unblocks.bind fun _ => .pure fun hn => hn.element List.mem_cons_self

theorem selector_unblocks (g : Grammar) (subject : Node) :
    Unblocks subject.Bare (selector g subject) Node.Bare where
  gives h hn := by
    have h' : Gives (selector g subject) ⟨false⟩ _ _ _ := (unscoped_selector g subject).gives h
    simp only [selector, gives_bind, gives_pure] at h
    obtain ⟨_, _, -, _, _, -, _, _, -, _, _, -, rfl, -⟩ := h
    exact ⟨hn.element List.mem_cons_self, h'⟩

theorem postfixTail_unblocks (g : Grammar) (operand : Node) :
    Unblocks operand.Bare (postfixTail g operand) Node.Bare := by
  refine .repeatFrom (fun operand => (unscoped_atTouching _).unblocks.bind fun _ => .ite ?_ ?_) _
  · exact (indexAccess_unblocks g operand).map
  refine (unscoped_atSymbol _).unblocks.bind fun _ => .ite (methodCall_unblocks g operand).map ?_
  refine (unscoped_atSymbol _).unblocks.bind fun _ => .ite (selector_unblocks g operand).map ?_
  exact .pure id

theorem operand_unblocks (g : Grammar) (place : BarewordPlace) :
    Unblocks True (operand g place) Node.Bare :=
  (primary_unblocks g place).bind fun n => postfixTail_unblocks g n

/-! ## Operators -/

theorem unary_unblocks (hg : g.Unblocks) (place : BarewordPlace) :
    Unblocks True (unary g place) Node.Bare := by
  refine unscoped_current.unblocks.bind fun t => ?_
  cases Operator.unary? t.kind with
  | none => exact operand_unblocks g place
  | some o =>
    refine unscoped_advance.unblocks.bind fun _ => hg.unary.bind fun inner => .pure fun hn => ?_
    exact hn.element List.mem_cons_self

theorem climb_unblocks (hg : g.Unblocks) (maxRank : Nat) (command : Bool) (left : Node) :
    Unblocks left.Bare (climb g maxRank command left) Node.Bare := by
  refine .repeatFrom (fun left => unscoped_current.unblocks.bind fun t => ?_) _
  cases Operator.binary? t.kind with
  | none => exact .pure id
  | some o =>
    refine .ite (.pure id) (unscoped_advance.unblocks.bind fun _ => .ite (.ite ?_ ?_) ?_)
    · exact .of_never gives_reject
    · refine (hg.binary _ _).frame.bind fun value => .pure fun hn => ?_
      exact ⟨hn.element List.mem_cons_self, hn.element (List.mem_cons_of_mem _ List.mem_cons_self)⟩
    · refine (hg.binary _ _).frame.bind fun right => .pure fun hn => ?_
      exact ⟨hn.element List.mem_cons_self, hn.element (List.mem_cons_of_mem _ List.mem_cons_self)⟩

theorem binaryIn_unblocks (hg : g.Unblocks) (place : BarewordPlace) (maxRank : Nat)
    (command : Bool) : Unblocks True (binaryIn g place maxRank command) Node.Bare :=
  (unary_unblocks hg place).bind fun n => climb_unblocks hg maxRank command n

theorem climbCommand_unblocks (hg : g.Unblocks) (maxRank : Nat) (left : Node) :
    Unblocks left.Bare (climbCommand g maxRank left) Node.Bare := by
  refine .repeatFrom (fun left => unscoped_current.unblocks.bind fun t => ?_) _
  cases Operator.command? t.kind with
  | none => exact .pure id
  | some o =>
    refine .ite (.pure id) (unscoped_advance.unblocks.bind fun _ => ?_)
    refine (hg.command _).frame.bind fun right => .pure fun hn => ?_
    exact ⟨hn.element List.mem_cons_self, hn.element (List.mem_cons_of_mem _ List.mem_cons_self)⟩

theorem command_unblocks (hg : g.Unblocks) (maxRank : Nat) :
    Unblocks True (command g maxRank) Node.Bare :=
  (binaryIn_unblocks hg .value _ true).bind fun n => climbCommand_unblocks hg maxRank n

/-- Bare expressions are read where no brace may open a block, however deep they nest. -/
theorem grammar_unblocks (n : Nat) : (grammar n).Unblocks := by
  induction n with
  | zero =>
    exact ⟨fun _ _ => .of_never gives_fail, fun _ => .of_never gives_fail, .of_never gives_fail⟩
  | succ n ih =>
    exact ⟨binaryIn_unblocks ih .value, command_unblocks ih, unary_unblocks ih .value⟩

end Parse

end ManifestTree
