import ManifestTree.Proofs.ReplayedStatements

/-!
# Conditions replayed before a brace

Where no brace may open a block, an expression is read before a brace as it is read before the end
of input.  No brace goes on with an operand or with an operator, and what stands between brackets
ends before it.
-/

namespace ManifestTree

open Parse ManifestTree.Parser

namespace Parser

variable {α β σ : Type} [Viewed α] [Viewed β] [Viewed σ] {k : Replay}

open Viewed (look)

/-- Where no brace may open a block, the second parser answers what the first does. -/
def ReplaysFlat (k : Replay) (p q : Parser α) : Prop :=
  ReplaysWhole k (withBraceBlocks false p) (withBraceBlocks false q)

/-- So it does from a stream that has a token. -/
structure BeginsFlat (k : Replay) (p q : Parser α) : Prop where
  keeps : ∀ {s a r}, s.Fit k.toTract → Gives p ⟨false⟩ s a r → r.Fit k.toTract ∧ (s.rest = [] → r = s)
  gives : ∀ {s s' a r}, s.Alike k s' → k.Leaves s → Gives p ⟨false⟩ s a r →
    ∃ r', Gives q ⟨false⟩ s' (look k.view a) r' ∧ r.Alike k r'

theorem ReplaysWhole.flat {p q : Parser α} (h : ReplaysWhole k p q) : ReplaysFlat k p q :=
  ⟨fun hs hp => h.keeps hs (gives_withBraceBlocks.mp hp), fun hs hp => h.gives hs hp⟩

theorem ReplaysFlat.answers {p q : Parser α} {s s' r : TokenStream} {a : α}
    (h : ReplaysFlat k p q) (hs : s.Alike k s') (hp : Gives p ⟨false⟩ s a r) :
    ∃ r', Gives q ⟨false⟩ s' (look k.view a) r' ∧ r.Alike k r' :=
  h.gives hs (show Gives (withBraceBlocks false p) ⟨false⟩ s a r from hp)

theorem ReplaysFlat.begins {p q : Parser α} (h : ReplaysFlat k p q) : BeginsFlat k p q where
  keeps {s a r} hs hp := h.keeps hs (show Gives (withBraceBlocks false p) ⟨false⟩ s a r from hp)
  gives hs _ hp := h.answers hs hp

theorem TakesWhole.begins {p q : Parser α} (h : TakesWhole k p q) : BeginsFlat k p q :=
  ⟨h.keeps, h.whole⟩

theorem ReplaysFlat.pure {a a' : α} (h : a' = look k.view a) :
    ReplaysFlat k (Pure.pure a) (Pure.pure a') := (ReplaysWhole.pure h).flat

theorem ReplaysFlat.bind {p q : Parser α} {f g : α → Parser β} (h : ReplaysFlat k p q)
    (hf : ∀ a, ReplaysFlat k (f a) (g (look k.view a))) : ReplaysFlat k (p >>= f) (q >>= g) :=
  ReplaysWhole.bind (f := fun a => withBraceBlocks false (f a))
    (g := fun a => withBraceBlocks false (g a)) h hf

theorem ReplaysFlat.map {p q : Parser α} {f g : α → β} (h : ReplaysFlat k p q)
    (hf : ∀ a, g (look k.view a) = look k.view (f a)) : ReplaysFlat k (f <$> p) (g <$> q) := by
  rw [map_eq_pure_bind, map_eq_pure_bind]
  exact h.bind fun a => .pure (hf a)

theorem ReplaysFlat.ite {c c' : Prop} [Decidable c] [Decidable c'] {p q p' q' : Parser α}
    (hc : c' ↔ c) (hp : ReplaysFlat k p p') (hq : ReplaysFlat k q q') :
    ReplaysFlat k (if c then p else q) (if c' then p' else q') := by
  by_cases h : c
  · rwa [if_pos h, if_pos (hc.mpr h)]
  · rwa [if_neg h, if_neg fun h' => h (hc.mp h')]

theorem BeginsFlat.ite {c c' : Prop} [Decidable c] [Decidable c'] {p q p' q' : Parser α}
    (hc : c' ↔ c) (hp : BeginsFlat k p p') (hq : BeginsFlat k q q') :
    BeginsFlat k (if c then p else q) (if c' then p' else q') := by
  by_cases h : c
  · rwa [if_pos h, if_pos (hc.mpr h)]
  · rwa [if_neg h, if_neg fun h' => h (hc.mp h')]

theorem BeginsFlat.of_never {p q : Parser α} (h : ∀ {scope s a r}, ¬ Gives p scope s a r) :
    BeginsFlat k p q := ⟨fun _ hp => (h hp).elim, fun _ _ hp => (h hp).elim⟩

theorem ReplaysFlat.of_never {p q : Parser α} (h : ∀ {scope s a r}, ¬ Gives p scope s a r) :
    ReplaysFlat k p q := ⟨fun _ hp => (h hp).elim, fun _ hp => (h hp).elim⟩

theorem ReplaysFlat.lift {e e' : Except Failure α} (h : ∀ a, e = .ok a → e' = .ok (look k.view a)) :
    ReplaysFlat k (liftM e : Parser α) (liftM e') where
  keeps := (Replays.withBraceBlocks false (.lift h)).keeps
  gives hs hp := by
    obtain ⟨he, rfl⟩ := gives_lift.mp (gives_withBraceBlocks.mp hp)
    exact ⟨_, gives_lift.mpr ⟨h _ he, rfl⟩, hs⟩

theorem BeginsFlat.advance_bind {f g : Token → Parser α}
    (hf : ∀ t, ReplaysFlat k (f t) (g (t.seen k.view))) :
    BeginsFlat k (advance >>= f) (advance >>= g) where
  keeps hs hp := by
    obtain ⟨t, s₁, ht, hp⟩ := gives_bind.mp hp
    obtain ⟨rfl, rfl⟩ := gives_advance.mp ht
    obtain ⟨hr, hsame⟩ := (hf _).begins.keeps hs.tail hp
    refine ⟨hr, fun hnil => ?_⟩
    rw [TokenStream.tail_of_nil hnil] at hsame
    exact hsame hnil
  gives hs hleaves hp := by
    obtain ⟨t, s₁, ht, hp⟩ := gives_bind.mp hp
    obtain ⟨rfl, rfl⟩ := gives_advance.mp ht
    obtain ⟨r', hq, hr⟩ := (hf _).answers (hs.tail hleaves) hp
    exact ⟨r', gives_bind.mpr ⟨_, _, gives_advance.mpr ⟨(hs.current hleaves).symm, rfl⟩, hq⟩, hr⟩

theorem BeginsFlat.advanceLeaf_bind {f g : Leaf → Parser α}
    (hf : ∀ l, ReplaysFlat k (f l) (g (l.seen k.view))) :
    BeginsFlat k (advanceLeaf >>= f) (advanceLeaf >>= g) := by
  simp only [advanceLeaf, bind_assoc, pure_bind]
  refine .advance_bind fun t => ?_
  rw [Token.seen_leaf]
  exact hf t.leaf

/-- So does a parser that does not answer at the end of input. -/
theorem BeginsFlat.flat {p q : Parser α} (h : BeginsFlat k p q)
    (hnever : ∀ {s a r}, s.Fit k.toTract → s.rest = [] → ¬ Gives p ⟨false⟩ s a r) :
    ReplaysFlat k p q :=
  ⟨fun hs hp => h.keeps hs (gives_withBraceBlocks.mp hp),
    fun hs hp => h.gives hs (.inr fun hnil => hnever hs.fit hnil hp) hp⟩

/-- The next token is looked at, or the end of input where another token comes. -/
theorem ReplaysFlat.current_bind {f g : Token → Parser α}
    (hf : ∀ t, t.Known k.toTract → BeginsFlat k (f t) (g (t.seen k.view)))
    (hend : ∀ t, t.kind = .endOfInput → ReplaysFlat k (f t) (g k.following)) :
    ReplaysFlat k (current >>= f) (current >>= g) where
  keeps hs hp := by
    obtain ⟨t, s₁, ht, hp⟩ := gives_bind.mp (gives_withBraceBlocks.mp hp)
    obtain ⟨rfl, rfl⟩ := gives_current.mp ht
    exact (hf _ hs.current).keeps hs hp
  gives {_ s s' _ _} hs hp := by
    obtain ⟨t, s₁, ht, hp⟩ := gives_bind.mp (gives_withBraceBlocks.mp hp)
    obtain ⟨rfl, rfl⟩ := gives_current.mp ht
    by_cases hleaves : k.Leaves s
    · obtain ⟨r', hq, hr⟩ := (hf _ hs.fit.current).gives hs hleaves hp
      exact ⟨r', gives_bind.mpr ⟨_, _, gives_current.mpr ⟨(hs.current hleaves).symm, rfl⟩, hq⟩, hr⟩
    · obtain ⟨hk, hcurrent, -⟩ := hs.follows hleaves
      obtain ⟨r', hq, hr⟩ := (hend _ hk).answers hs hp
      exact ⟨r', gives_bind.mpr ⟨_, _, gives_current.mpr ⟨hcurrent.symm, rfl⟩, hq⟩, hr⟩

theorem replaysFlat_iterate {step step' : σ → Parser (σ ⊕ α)}
    (hstep : ∀ x, ReplaysFlat k (step x) (step' (look k.view x))) {n m : Nat} (hn : n ≤ m)
    (x : σ) : ReplaysFlat k (iterate step n x) (iterate step' m (look k.view x)) := by
  induction n generalizing m x with
  | zero => exact .of_never gives_fail
  | succ n ih =>
    obtain ⟨m, rfl⟩ := Nat.exists_eq_succ_of_ne_zero (Nat.ne_zero_of_lt hn)
    refine (hstep x).bind fun y => ?_
    cases y with
    | inl y => exact ih (Nat.le_of_succ_le_succ hn) y
    | inr a => exact .pure rfl

theorem ReplaysFlat.repeatFrom {step step' : σ → Parser (σ ⊕ α)}
    (hstep : ∀ x, ReplaysFlat k (step x) (step' (look k.view x))) (x : σ) :
    ReplaysFlat k (Parser.repeatFrom step x) (Parser.repeatFrom step' (look k.view x)) where
  keeps hs hp :=
    (replaysFlat_iterate hstep (Nat.le_refl _) x).begins.keeps hs (gives_repeatFrom.mp hp)
  gives {scope s s' a r} hs hp := by
    have hlength : s.rest.length + 1 ≤ s'.rest.length + 1 := by
      rw [hs.rest, List.length_append, List.length_map]
      omega
    obtain ⟨r', hq, hr'⟩ := (replaysFlat_iterate hstep hlength x).answers hs
      (gives_repeatFrom.mp hp)
    exact ⟨r', gives_repeatFrom.mpr hq, hr'⟩

end Parser

/-- Where no brace may open a block, the parsers of the second grammar replay those of the first
before a brace. -/
structure Grammar.ReplaysFlat (k : Replay) (g g' : Grammar) : Prop extends g.Replays k g' where
  opens : k.following.kind = .symbol .leftBrace
  binary_flat : ∀ maxRank command,
    Parser.ReplaysFlat k (g.binary maxRank command) (g'.binary maxRank command)
  command_flat : ∀ maxRank, Parser.ReplaysFlat k (g.command maxRank) (g'.command maxRank)
  unary_flat : Parser.ReplaysFlat k g.unary g'.unary

namespace Parse

open Viewed (look)

variable {k : Replay} {g g' : Grammar}

/-! ## Signs before a brace -/

theorem atSymbol_flat (hk : k.following.kind = .symbol .leftBrace) {x : Symbol}
    (hx : x ≠ .leftBrace) : ReplaysFlat k (atSymbol x) (atSymbol x) := by
  refine (replaysWhole_nextIs (by simp) fun _ h => hx ?_).flat
  exact (TokenKind.symbol.inj (hk.symm.trans h)).symm

theorem atTouching_flat (hk : k.following.kind = .symbol .leftBrace) {x : Symbol}
    (hx : x ≠ .leftBrace) : ReplaysFlat k (atTouching x) (atTouching x) where
  keeps := (replays_atTouching x).keeps
  gives {_ s s' b r} hs hp := by
    obtain ⟨rfl, rfl⟩ := gives_atTouching.mp hp
    refine ⟨s', gives_atTouching.mpr ⟨?_, rfl⟩, hs⟩
    by_cases hleaves : k.Leaves s
    · rw [hs.current hleaves, Token.seen_kind, hs.touches hleaves]
      rfl
    · obtain ⟨hend, hcurrent, -⟩ := hs.follows hleaves
      simp [hend, hcurrent, hk, hx.symm]

/-- No brace opens what it may open elsewhere. -/
theorem unblocked_flat {α : Type} [Viewed α] {p p' q q' : Parser α} (h : ReplaysFlat k q q') :
    ReplaysFlat k
      (do if (← atSymbol .leftBrace) && (← read).braceBlocks then p else q)
      (do if (← atSymbol .leftBrace) && (← read).braceBlocks then p' else q') := by
  have hgives (p q : Parser α) {s a r} :
      Gives (do if (← atSymbol .leftBrace) && (← read).braceBlocks then p else q) ⟨false⟩ s a r ↔
        Gives q ⟨false⟩ s a r := by simp
  refine ⟨fun hs hp => h.begins.keeps hs ((hgives p q).mp hp), fun hs hp => ?_⟩
  obtain ⟨r', hq, hr⟩ := h.answers hs ((hgives p q).mp hp)
  exact ⟨r', (hgives p' q').mpr hq, hr⟩

theorem optionalLambda_flat (hk : k.following.kind = .symbol .leftBrace) (hg : g.Replays k g') :
    ReplaysFlat k (optionalLambda g) (optionalLambda g') := by
  refine (atSymbol_flat hk (by decide)).bind fun b => .ite Iff.rfl ?_ ?_
  · exact (lambda_closes hg).toReplaysWhole.flat.map fun _ => rfl
  · exact unblocked_flat (.pure rfl)

/-! ## Operands -/

theorem functionCall_flat (hk : k.following.kind = .symbol .leftBrace) (hg : g.Replays k g')
    (t : Token) : ReplaysFlat k (functionCall g t) (functionCall g' (t.seen k.view)) := by
  refine (argumentList_closes hg).toReplaysWhole.flat.bind fun ⟨leaves, items, close⟩ => ?_
  refine (optionalLambda_flat hk hg).bind fun block => .pure ?_
  cases block <;> simp [Shape.foldNodes, Token.identifier]

theorem bareword_begins (hk : k.following.kind = .symbol .leftBrace) (hg : g.Replays k g')
    (place : BarewordPlace) : BeginsFlat k (bareword g place) (bareword g' place) := by
  refine .advance_bind fun t => (atTouching_flat hk (by decide)).bind fun b => ?_
  rw [Token.seen_text, look_bool]
  cases place.reading (t.text.contains ':') b with
  | word => exact .pure (by simp)
  | naming => exact .ite Iff.rfl (functionCall_flat hk hg t) (.pure (by simp))

theorem collector_flat (hg : g.Replays k g') (type : Node) :
    ReplaysFlat k (collector g type) (collector g' (type.seen k.view)) := by
  refine BeginsFlat.flat (.advance_bind fun opener => ?_) fun hs hnil h => ?_
  · rw [Token.seen_kind]
    refine (collectorQuery_closes hg _).toReplaysWhole.flat.bind fun ⟨query, closer⟩ => ?_
    refine unblocked_flat (.pure ?_)
    cases query <;> simp [Shape.foldNodes]
  · obtain ⟨_, _, hadvance, h⟩ := gives_bind.mp h
    obtain ⟨rfl, rfl⟩ := gives_advance.mp hadvance
    obtain ⟨_, _, hquery, -⟩ := gives_bind.mp h
    exact (collectorQuery_closes hg _).starves hs.tail (by rw [TokenStream.tail_of_nil hnil, hnil])
      hquery

theorem referenceOperand_begins (hk : k.following.kind = .symbol .leftBrace)
    (hg : g.Replays k g') : BeginsFlat k (referenceOperand g) (referenceOperand g') := by
  refine .advance_bind fun t => (atTouching_flat hk (by decide)).bind fun b => .ite Iff.rfl ?_ ?_
  · refine (indexList_closes hg).toReplaysWhole.flat.bind fun ⟨leaves, items, close⟩ => .pure ?_
    simp [Shape.foldNodes]
  · refine (atSymbol_flat hk (by decide)).bind fun b => (atSymbol_flat hk (by decide)).bind
      fun c => .ite Iff.rfl ?_ (.pure (by simp))
    rw [Token.seen_referenceIdentifier]
    exact collector_flat hg _

theorem primary_flat (hk : k.following.kind = .symbol .leftBrace) (hg : g.Replays k g')
    (place : BarewordPlace) : ReplaysFlat k (primary g place) (primary g' place) := by
  refine .current_bind (fun t ht => ?_) fun t ht => ?_
  · rcases Token.literal?_seen hg ht with ⟨hnone, hnone'⟩ | ⟨e, e', he, he', hlit⟩
    · rw [hnone, hnone', Token.seen_kind]
      dsimp only
      split <;> rename_i hkind
      · simpa only [hkind] using bareword_begins hk hg place
      · simpa only [hkind] using referenceOperand_begins hk hg
      · simpa only [hkind] using (array_takes hg).begins
      · simpa only [hkind] using (hash_takes hg).begins
      · simpa only [hkind] using (parenthesized_takes hg).begins
      · exact .of_never gives_unexpected
    · rw [he, he']
      exact .advance_bind fun _ => .lift hlit
  · simp only [Token.literal?, ht]
    exact .of_never gives_unexpected

theorem methodCall_flat (hk : k.following.kind = .symbol .leftBrace) (hg : g.Replays k g')
    (receiver : Node) :
    ReplaysFlat k (methodCall g receiver) (methodCall g' (receiver.seen k.view)) := by
  refine BeginsFlat.flat ?_ fun hs hnil h => ?_
  · simp only [methodCall, ite_bind]
    refine .advanceLeaf_bind fun dot => .current_bind (fun t _ => ?_) fun t ht => ?_
    · refine .ite (by simp) (.of_never gives_unexpected) (.advance_bind fun name => ?_)
      refine (atTouching_flat hk (by decide)).bind fun b => ?_
      have harguments : ReplaysFlat k (if b then some <$> argumentList g else pure none)
          (if b then some <$> argumentList g' else pure none) :=
        .ite Iff.rfl ((argumentList_closes hg).toReplaysWhole.flat.map fun _ => rfl) (.pure rfl)
      refine harguments.bind fun arguments => (optionalLambda_flat hk hg).bind fun block => .pure ?_
      rcases arguments with _ | ⟨leaves, items, close⟩ <;> cases block <;> simp [Shape.foldNodes]
    · rw [ht]
      exact .of_never gives_unexpected
  · simp only [methodCall, gives_bind, gives_advanceLeaf, gives_current] at h
    obtain ⟨_, _, ⟨-, rfl⟩, _, _, ⟨rfl, rfl⟩, h⟩ := h
    rw [TokenStream.tail_of_nil hnil, hs.current_of_nil hnil] at h
    exact gives_unexpected h

theorem postfixTail_flat (hk : k.following.kind = .symbol .leftBrace) (hg : g.Replays k g')
    (operand : Node) :
    ReplaysFlat k (postfixTail g operand) (postfixTail g' (operand.seen k.view)) := by
  refine .repeatFrom (fun operand => (atTouching_flat hk (by decide)).bind fun b =>
    .ite Iff.rfl ?_ ?_) operand
  · exact (indexAccess_closes hg operand).toReplaysWhole.flat.map fun _ => rfl
  refine (atSymbol_flat hk (by decide)).bind fun b => .ite Iff.rfl ?_ ?_
  · exact (methodCall_flat hk hg operand).map fun _ => rfl
  refine (atSymbol_flat hk (by decide)).bind fun b => .ite Iff.rfl ?_ (.pure rfl)
  exact (selector_closes hg operand).toReplaysWhole.flat.map fun _ => rfl

theorem operand_flat (hk : k.following.kind = .symbol .leftBrace) (hg : g.Replays k g')
    (place : BarewordPlace) : ReplaysFlat k (operand g place) (operand g' place) :=
  (primary_flat hk hg place).bind fun n => postfixTail_flat hk hg n

/-! ## Operators -/

theorem unary_flat (hg : g.ReplaysFlat k g') (place : BarewordPlace) :
    ReplaysFlat k (unary g place) (unary g' place) := by
  have hoperand := operand_flat hg.opens hg.toReplays place
  refine .current_bind (fun t _ => ?_) fun t ht => ?_
  · rw [Token.seen_kind]
    cases Operator.unary? t.kind with
    | none => exact hoperand.begins
    | some o =>
      exact .advance_bind fun _ => hg.unary_flat.bind fun n => .pure (by simp [Shape.foldNodes])
  · rw [ht, hg.opens]
    exact hoperand

theorem climb_flat (hg : g.ReplaysFlat k g') (maxRank : Nat) (command : Bool) (left : Node) :
    ReplaysFlat k (climb g maxRank command left)
      (climb g' maxRank command (left.seen k.view)) := by
  refine .repeatFrom (fun left => .current_bind (fun t _ => ?_) fun t ht => ?_) left
  · rw [Token.seen_kind]
    cases Operator.binary? t.kind with
    | none => exact (ReplaysFlat.pure rfl).begins
    | some o =>
      refine .ite Iff.rfl (ReplaysFlat.pure rfl).begins (.advance_bind fun _ => .ite Iff.rfl ?_ ?_)
      · refine .ite (by simp) (.of_never gives_reject) ((hg.binary_flat _ _).bind fun value => ?_)
        exact .pure (by simp [Shape.foldNodes])
      · exact (hg.binary_flat _ _).bind fun right => .pure (by simp [Shape.foldNodes])
  · rw [ht, hg.opens]
    exact .pure rfl

theorem binaryIn_flat (hg : g.ReplaysFlat k g') (place : BarewordPlace) (maxRank : Nat)
    (command : Bool) :
    ReplaysFlat k (binaryIn g place maxRank command) (binaryIn g' place maxRank command) :=
  (unary_flat hg place).bind fun n => climb_flat hg maxRank command n

theorem climbCommand_flat (hg : g.ReplaysFlat k g') (maxRank : Nat) (left : Node) :
    ReplaysFlat k (climbCommand g maxRank left)
      (climbCommand g' maxRank (left.seen k.view)) := by
  refine .repeatFrom (fun left => .current_bind (fun t _ => ?_) fun t ht => ?_) left
  · rw [Token.seen_kind]
    cases Operator.command? t.kind with
    | none => exact (ReplaysFlat.pure rfl).begins
    | some o =>
      refine .ite Iff.rfl (ReplaysFlat.pure rfl).begins (.advance_bind fun _ => ?_)
      exact (hg.command_flat _).bind fun right => .pure (by simp [Shape.foldNodes])
  · rw [ht, hg.opens]
    exact .pure rfl

theorem command_flat (hg : g.ReplaysFlat k g') (maxRank : Nat) :
    ReplaysFlat k (command g maxRank) (command g' maxRank) :=
  (binaryIn_flat hg .value _ true).bind fun n => climbCommand_flat hg maxRank n

/-- Before a brace the grammar is replayed by one with a bound that is as high. -/
theorem grammar_replaysFlat (hk : k.following.kind = .symbol .leftBrace) {n m : Nat} (h : n ≤ m) :
    (grammar n).ReplaysFlat k (grammar m) := by
  induction n generalizing m with
  | zero =>
    exact {
      toReplays := grammar_replays h k
      opens := hk
      binary_flat := fun _ _ => .of_never gives_fail
      command_flat := fun _ => .of_never gives_fail
      unary_flat := .of_never gives_fail }
  | succ n ih =>
    obtain ⟨m, rfl⟩ := Nat.exists_eq_succ_of_ne_zero (Nat.ne_zero_of_lt h)
    have ih := ih (Nat.le_of_succ_le_succ h)
    exact {
      toReplays := grammar_replays h k
      opens := hk
      binary_flat := binaryIn_flat ih .value
      command_flat := command_flat ih
      unary_flat := unary_flat ih .value }

end Parse

end ManifestTree
