import ManifestTree.Proofs.ReplayedParsers

/-!
# Expressions replayed elsewhere

Expressions, types and bodies are read elsewhere as they were read, if the grammar for the constructs
within them is replayed.  Every construct is replayed step by step: the tokens that it reads look the
same but for their places, and its node is made of them.
-/

namespace ManifestTree

open Parse ManifestTree.Parser

/-- The parsers of the second grammar replay those of the first. -/
structure Grammar.Replays (k : Replay) (g g' : Grammar) : Prop where
  binary : ∀ maxRank command, Parser.Replays k (g.binary maxRank command) (g'.binary maxRank command)
  command : ∀ maxRank, Parser.Replays k (g.command maxRank) (g'.command maxRank)
  unary : Parser.Replays k g.unary g'.unary
  type : Parser.Replays k g.type g'.type
  statement : Parser.Replays k g.statement g'.statement
  interpolated : ∀ {f : Fragment} {ts : List Token} {n : Node}, f.LiesIn k.toTract →
    f.piece = .interpolation ts → g.interpolated ts = .ok n →
      g'.interpolated (ts.map (Token.seen k.view)) = .ok (n.seen k.view)

variable {k : Replay} {g g' : Grammar}

theorem Grammar.Replays.expression (hg : g.Replays k g') :
    Parser.Replays k g.expression g'.expression := hg.binary _ _

theorem Grammar.Replays.value (hg : g.Replays k g') : Parser.Replays k g.value g'.value :=
  hg.binary _ _

/-! ## Strings and heredocs -/

/-- An answer for each of some items is an answer for each elsewhere. -/
theorem mapM_seen {α β : Type} {F F' : α → Except Failure β} {φ : α → α} {ψ : β → β} {xs : List α}
    (h : ∀ x ∈ xs, ∀ y, F x = .ok y → F' (φ x) = .ok (ψ y)) {ys : List β}
    (hxs : xs.mapM F = .ok ys) : (xs.map φ).mapM F' = .ok (ys.map ψ) := by
  induction xs generalizing ys with
  | nil =>
    obtain rfl : [] = ys := Except.ok.inj hxs
    rfl
  | cons x xs ih =>
    rw [List.mapM_cons] at hxs
    obtain ⟨y, hy, hxs⟩ := bind_eq_ok.mp hxs
    obtain ⟨zs, hzs, hys⟩ := bind_eq_ok.mp hxs
    obtain rfl : y :: zs = ys := Except.ok.inj hys
    obtain ⟨hx, hmore⟩ := List.forall_mem_cons.mp h
    rw [List.map_cons, List.mapM_cons]
    exact bind_eq_ok.mpr ⟨_, hx y hy, bind_eq_ok.mpr ⟨_, ih hmore hzs, rfl⟩⟩

theorem Fragment.toNode_seen (hg : g.Replays k g') {f : Fragment} (hf : f.LiesIn k.toTract)
    {n : Node} (h : f.toNode g = .ok n) : (f.seen k.view).toNode g' = .ok (n.seen k.view) := by
  unfold toNode at h ⊢
  rw [seen_piece]
  cases hp : f.piece with
  | content =>
    rw [hp] at h
    obtain rfl := Except.ok.inj h
    simp [Piece.seen, Shape.foldNodes]
  | escape value =>
    rw [hp] at h
    obtain rfl := Except.ok.inj h
    simp [Piece.seen, Shape.foldNodes]
  | «variable» =>
    rw [hp] at h
    obtain rfl := Except.ok.inj h
    simp [Piece.seen]
  | interpolation ts =>
    obtain ⟨us, q, hts, -, hcounted, hq⟩ := hf.interpolation hp
    rw [hp] at h
    obtain ⟨e, he, hn⟩ := bind_eq_ok.mp h
    obtain rfl := Except.ok.inj hn
    rw [Piece.seen_interpolation]
    refine bind_eq_ok.mpr ⟨_, hg.interpolated hf hp he, ?_⟩
    have hlast : ts.getLast?.getD default = Token.endAt q := by
      rw [hts, List.getLast?_concat]
      rfl
    have hlast' : (ts.map (Token.seen k.view)).getLast?.getD default = Token.endAt (k.move q) := by
      rw [hts, List.map_append, List.map_singleton, List.getLast?_concat]
      simp [Token.endAt, Token.seen, TokenDetail.seen, k.moves.sized hcounted hq]
    have hopener := hf.located.covers.opening_seen (hf.begins f f.self_mem_deep) k.moves 2
    have hcloser := k.moves.sized hcounted hq 1
    rw [hlast, hlast', seen_span, Node.seen_mk]
    have hleaves (a b : Text) :=
      congrArg₂ (fun s r : Span => [Leaf.mk s a, Leaf.mk r b]) hopener.symm hcloser.symm
    exact congrArg Except.ok (congrArg₂ (Node.mk (k.view.span f.span)) (hleaves _ _) rfl)

theorem Fragment.toNodes_seen (hg : g.Replays k g') {fs : List Fragment}
    (hfs : ∀ f ∈ fs, f.LiesIn k.toTract) {ns : List Node} (h : toNodes g fs = .ok ns) :
    toNodes g' (fs.map (Fragment.seen k.view)) = .ok (ns.map (Node.seen k.view)) :=
  mapM_seen (fun f hf _ hn => toNode_seen hg (hfs f hf) hn) h

namespace Token

variable {t : Token} {n : Node}

theorem closingQuote_seen (ht : t.LiesIn k.toTract) :
    (t.seen k.view).closingQuote = t.closingQuote.seen k.view := by
  obtain ⟨hcounted, hfirst, hposition⟩ := ht.position_seen k.moves
  have hclose := Nat.le_trans hfirst (Nat.le_add_right _ t.text.dropLast.length)
  rw [← Position.after_offset] at hclose
  simp only [closingQuote, Leaf.seen, seen_text, hposition,
    k.moves.sized (hcounted.after _) hclose, k.moves.after hcounted hfirst]

theorem stringNode_seen (hg : g.Replays k g') (ht : t.LiesIn k.toTract)
    (h : t.stringNode g = .ok n) : (t.seen k.view).stringNode g' = .ok (n.seen k.view) := by
  obtain ⟨hcounted, hfirst, hposition⟩ := ht.position_seen k.moves
  obtain ⟨fs, hfs, hn⟩ := bind_eq_ok.mp h
  obtain rfl := Except.ok.inj hn
  have hfs' := Fragment.toNodes_seen hg ht.fragments hfs
  rw [← seen_fragments_eq] at hfs'
  refine bind_eq_ok.mpr ⟨_, hfs', ?_⟩
  rw [Node.seen_mk, closingQuote_seen ht, seen_text, hposition, seen_span]
  simp [Shape.foldNodes, Leaf.seen, k.moves.sized hcounted hfirst]
  rfl

theorem heredocNode_seen (hg : g.Replays k g') (ht : t.LiesIn k.toTract) {tag : HeredocTag}
    {b : HeredocBody} (hb : b ∈ t.body?) (h : t.heredocNode g tag b = .ok n) :
    (t.seen k.view).heredocNode g' tag (b.seen k.view) = .ok (n.seen k.view) := by
  obtain ⟨fs, hfs, hn⟩ := bind_eq_ok.mp h
  obtain rfl := Except.ok.inj hn
  have hfs' := Fragment.toNodes_seen hg (ht.body b hb) hfs
  rw [← HeredocBody.seen_fragments_eq] at hfs'
  refine bind_eq_ok.mpr ⟨_, hfs', ?_⟩
  simp [Shape.foldNodes]
  rfl

/-- What a token makes alone it makes elsewhere, where it makes anything. -/
theorem literal?_seen (hg : g.Replays k g') (ht : t.Known k.toTract) :
    (t.literal? g = none ∧ (t.seen k.view).literal? g' = none) ∨
      ∃ e e', t.literal? g = some e ∧ (t.seen k.view).literal? g' = some e' ∧
        ∀ n, e = .ok n → e' = .ok (n.seen k.view) := by
  have plain {m m' : Node} (hm : m' = m.seen k.view) :
      ∀ n, Except.ok (ε := Failure) m = .ok n → Except.ok (ε := Failure) m' = .ok (n.seen k.view) := by
    rintro _ ⟨⟩
    rw [hm]
  have located (hk : t.kind ≠ .endOfInput) : t.LiesIn k.toTract := ht.resolve_left hk
  unfold literal?
  rw [seen_kind, seen_detail]
  split
  case h_1 hk => exact .inr ⟨_, _, rfl, by rw [hk], plain (by simp)⟩
  case h_2 hk =>
    refine .inr ⟨_, _, rfl, by rw [hk], fun n hn => ?_⟩
    unfold integerNode at hn ⊢
    rw [seen_text]
    split at hn
    · obtain rfl := Except.ok.inj hn
      simp [Shape.foldNodes]
    · cases hn
  case h_3 hk => exact .inr ⟨_, _, rfl, by rw [hk], plain (by simp [Shape.foldNodes])⟩
  case h_4 hk =>
    exact .inr ⟨_, _, rfl, by rw [hk], fun n hn => stringNode_seen hg (located (by simp [hk])) hn⟩
  case h_5 tag b hk hd =>
    refine .inr ⟨_, _, rfl, by rw [hk, hd, TokenDetail.seen], fun n hn => ?_⟩
    exact heredocNode_seen hg (located (by simp [hk])) (by rw [body?, hd]; rfl) hn
  case h_6 hk => exact .inr ⟨_, _, rfl, by rw [hk], plain (by simp)⟩
  case h_7 hk => exact .inr ⟨_, _, rfl, by rw [hk], plain (by simp [Shape.foldNodes])⟩
  case h_8 hk => exact .inr ⟨_, _, rfl, by rw [hk], plain (by simp [Shape.foldNodes])⟩
  case h_9 hk => exact .inr ⟨_, _, rfl, by rw [hk], plain (by simp [Shape.foldNodes])⟩
  case h_10 hk => exact .inr ⟨_, _, rfl, by rw [hk], plain (by simp)⟩
  case h_11 hbody =>
    refine .inl ⟨rfl, ?_⟩
    split
    case h_5 hk hd =>
      -- A body elsewhere is one that the token has.
      cases hdetail : t.detail with
      | heredoc tag body =>
        cases body with
        | some b => exact (hbody tag b hk hdetail).elim
        | none =>
          rw [hdetail] at hd
          cases hd
      | _ =>
        rw [hdetail] at hd
        cases hd
    all_goals first | rfl | (exfalso; simp_all)

end Token

/-! ## Indices and arguments -/

open Viewed (look)

@[simp] theorem look_bracketed (v : View) (ls : List Leaf) (is : List Node) (t : Token) :
    look v (⟨ls, is, t⟩ : Bracketed) = ⟨ls.map (Leaf.seen v), is.map (Node.seen v), t.seen v⟩ := rfl

namespace Parse

theorem indexList_closes (hg : g.Replays k g') : Closes k (indexList g) (indexList g') := by
  refine (replays_expectSymbol .leftBracket).bind_closes fun opener => ?_
  refine (Replays.withBraceBlocks true hg.expression.commaSeparated).bind_closes
    fun ⟨items, commas⟩ => ?_
  exact (closes_expectSymbol .rightBracket).bind fun close => .pure (by simp)

theorem argumentList_closes (hg : g.Replays k g') :
    Closes k (argumentList g) (argumentList g') := by
  refine (replays_expectSymbol .leftParen).bind_closes fun opener => ?_
  refine (Replays.withBraceBlocks true hg.expression.commaList).bind_closes
    fun ⟨items, commas⟩ => ?_
  exact (closes_expectSymbol .rightParen).bind fun close => .pure (by simp)

/-! ## Types and parameters -/

theorem typeArgument_replays (hg : g.Replays k g') :
    Parser.Replays k (typeArgument g) (typeArgument g') := by
  refine .current_bind fun t _ => .ite (by simp) hg.type ?_
  exact hg.unary.bind fun argument => .ite (by simp) (.pure rfl) .reject

theorem typeExpression_replays (hg : g.Replays k g') :
    Parser.Replays k (typeExpression g) (typeExpression g') := by
  refine (replays_expect .reference).bind fun name => (replays_atSymbol .leftBracket).bind
    fun b => .ite Iff.rfl ?_ (.pure (by simp [Shape.foldNodes]))
  refine replays_advanceLeaf.bind fun opener => ?_
  refine (Replays.withBraceBlocks true (typeArgument_replays hg).commaList).bind fun r => ?_
  obtain ⟨arguments, commas⟩ := r
  exact (replays_expectSymbol .rightBracket).bind fun close => .pure (by simp [Shape.foldNodes])

/-- A construct that is there if a condition holds. -/
theorem optional_replays {α : Type} [Viewed α] {c c' : Prop} [Decidable c] [Decidable c']
    {p p' : Parser α} (hc : c' ↔ c) (hp : Parser.Replays k p p') :
    Parser.Replays k (if c then some <$> p else pure none)
      (if c' then some <$> p' else pure none) :=
  .ite hc (hp.map fun _ => rfl) (.pure rfl)

theorem parameter_replays (hg : g.Replays k g') :
    Parser.Replays k (parameter g) (parameter g') := by
  simp only [parameter, ite_bind]
  refine .current_bind fun start _ => ?_
  refine (optional_replays (by simp) (typeExpression_replays hg)).bind fun type => ?_
  refine (replays_atSymbol .times).bind fun b => ?_
  refine (optional_replays Iff.rfl replays_advanceLeaf).bind fun star => ?_
  refine .current_bind fun t _ => .ite (by simp) .unexpected ?_
  refine replays_advance.bind fun name => (replays_atSymbol .equals).bind
    fun b => .ite Iff.rfl ?_ (.pure ?_)
  · refine replays_advanceLeaf.bind fun equals => ?_
    refine (Replays.withBraceBlocks true hg.value).bind fun value => .pure ?_
    cases star <;> simp [Shape.foldNodes]
  · cases star <;> simp [Shape.foldNodes]

theorem parameterList_replays (hg : g.Replays k g') (opens closes : Symbol) :
    Parser.Replays k (parameterList g opens closes) (parameterList g' opens closes) := by
  refine (replays_expectSymbol opens).bind fun opener => ?_
  refine (parameter_replays hg).commaList.bind fun ⟨parameters, commas⟩ => ?_
  exact (replays_expectSymbol closes).bind fun close => .pure (by simp [Shape.foldNodes])

/-! ## Bodies and lambdas -/

theorem body_closes (hg : g.Replays k g') : Closes k (body g) (body g') := by
  refine .current_bind fun opener _ => .ite (by simp) (.of_never gives_reject) ?_
  refine replays_advance.bind_closes fun _ => ?_
  refine (Replays.withBraceBlocks true (.untilClosed (fun _ => ?_) rfl)).bind_closes
    fun ⟨statements, _⟩ => ?_
  · exact hg.statement.bind fun n => .pure (by simp)
  · exact (closes_expectSymbol .rightBrace).bind fun close => .pure (by simp [Shape.foldNodes])

theorem lambda_closes (hg : g.Replays k g') : Closes k (lambda g) (lambda g') := by
  simp only [lambda, ite_bind]
  refine (replays_atSymbol .pipe).bind_closes fun b => ?_
  refine (optional_replays Iff.rfl (parameterList_replays hg .pipe .pipe)).bind_closes
    fun parameters => ?_
  refine (body_closes hg).bind fun block => .pure ?_
  cases parameters <;> simp [Shape.foldNodes]

theorem optionalLambda_replays (hg : g.Replays k g') :
    Parser.Replays k (optionalLambda g) (optionalLambda g') := by
  have hlambda : Parser.Replays k (some <$> lambda g) (some <$> lambda g') :=
    (lambda_closes hg).replays.map fun _ => rfl
  refine (replays_atSymbol .pipe).bind fun b => .ite Iff.rfl hlambda ?_
  refine (replays_atSymbol .leftBrace).bind fun b => replays_read.bind fun scope => ?_
  exact .ite Iff.rfl hlambda (.pure rfl)

/-! ## Operands -/

theorem functionCall_replays (hg : g.Replays k g') (t : Token) :
    Parser.Replays k (functionCall g t) (functionCall g' (t.seen k.view)) := by
  refine (argumentList_closes hg).replays.bind fun ⟨leaves, items, close⟩ => ?_
  refine (optionalLambda_replays hg).bind fun block => .pure ?_
  cases block <;> simp [Shape.foldNodes, Token.identifier]

theorem bareword_takes (hg : g.Replays k g') (place : BarewordPlace) :
    Takes k (bareword g place) (bareword g' place) := by
  refine .advance_bind fun t => (replays_atTouching .leftParen).bind fun b => ?_
  rw [Token.seen_text, look_bool]
  cases place.reading (t.text.contains ':') b with
  | word => exact .pure (by simp)
  | naming => exact .ite Iff.rfl (functionCall_replays hg t) (.pure (by simp))

theorem attributeItem_replays (hg : g.Replays k g') :
    Parser.Replays k (attributeItem g) (attributeItem g') := by
  simp only [attributeItem, pure_bind]
  refine .current_bind fun t ht => ?_
  have rest (name : Node) : Parser.Replays k
      (do
        let arrow ← expectAny [.symbol .fatArrow, .symbol .plusArrow]
        let value ← g.value
        return Node.mk (t.span.join value.span) [arrow.leaf] (.attribute name
          (if arrow.kind = .symbol .fatArrow then .set else .add) value))
      (do
        let arrow ← expectAny [.symbol .fatArrow, .symbol .plusArrow]
        let value ← g'.value
        return Node.mk ((t.seen k.view).span.join value.span) [arrow.leaf] (.attribute
          (name.seen k.view) (if arrow.kind = .symbol .fatArrow then .set else .add) value)) := by
    refine (replays_expectAny _).bind fun arrow => hg.value.bind fun value => .pure ?_
    simp [Shape.foldNodes]
  rw [Token.seen_kind]
  refine .ite Iff.rfl (replays_advance.bind fun _ => ?_) ?_
  · rw [Token.seen_named]
    exact rest _
  by_cases hstring : t.kind = .string
  · rw [if_pos hstring, if_pos hstring]
    refine replays_advance.bind fun _ => Replays.bind (.lift fun n hn => ?_) rest
    exact Token.stringNode_seen hg (ht.resolve_left (by simp [hstring])) hn
  rw [if_neg hstring, if_neg hstring]
  refine .ite Iff.rfl (replays_advance.bind fun _ => ?_) ?_
  · rw [Token.seen_leaf, Leaf.seen_toNode]
    exact rest _
  · exact .of_never fun h => by
      obtain ⟨_, _, h, -⟩ := gives_bind.mp h
      exact gives_unexpected h

theorem collectorQuery_closes (hg : g.Replays k g') (closes : Symbol) :
    Closes k (collectorQuery g closes) (collectorQuery g' closes) := by
  have close (query : Option Node) : Closes k
      (do return (query, ← expectSymbol closes))
      (do return (query.map (Node.seen k.view), ← expectSymbol closes)) :=
    (closes_expectSymbol closes).bind fun t => .pure (by simp)
  have hsome : Parser.Replays k (some <$> withBraceBlocks true g.expression)
      (some <$> withBraceBlocks true g'.expression) :=
    (Replays.withBraceBlocks true hg.expression).map fun _ => rfl
  refine (replays_atSymbol closes).bind_closes fun b => .ite Iff.rfl ?_ (hsome.bind_closes close)
  exact Replays.bind_closes (.pure (a := none) rfl) close

theorem attributes_replays (hg : g.Replays k g') (closes : TokenKind → Bool) :
    Parser.Replays k (attributes g closes) (attributes g' closes) :=
  (attributeItem_replays hg).commaList

theorem collector_replays (hg : g.Replays k g') (type : Node) :
    Parser.Replays k (collector g type) (collector g' (type.seen k.view)) := by
  refine replays_advance.bind fun opener => ?_
  rw [look_token, Token.seen_kind]
  refine (collectorQuery_closes hg _).replays.bind fun ⟨query, closer⟩ => ?_
  refine (replays_atSymbol .leftBrace).bind fun b => replays_read.bind fun scope => ?_
  refine .ite Iff.rfl ?_ (.pure ?_)
  · refine replays_advanceLeaf.bind fun l => (attributes_replays hg _).bind
      fun ⟨items, commas⟩ => ?_
    refine (replays_expectSymbol .rightBrace).bind fun close => .pure ?_
    cases query <;> simp [Shape.foldNodes]
  · cases query <;> simp [Shape.foldNodes]

theorem referenceOperand_takes (hg : g.Replays k g') :
    Takes k (referenceOperand g) (referenceOperand g') := by
  refine .advance_bind fun t => (replays_atTouching .leftBracket).bind
    fun b => .ite Iff.rfl ?_ ?_
  · refine (indexList_closes hg).replays.bind fun ⟨leaves, items, close⟩ => .pure ?_
    simp [Shape.foldNodes]
  · refine (replays_atSymbol .leftCollect).bind fun b => (replays_atSymbol .leftExport).bind
      fun c => .ite Iff.rfl ?_ (.pure (by simp))
    rw [Token.seen_referenceIdentifier]
    exact collector_replays hg _

theorem array_takes (hg : g.Replays k g') : TakesWhole k (array g) (array g') := by
  refine .advance_bind fun opener => Closes.toReplaysWhole ?_
  refine (Replays.withBraceBlocks true hg.value.commaList).bind_closes fun ⟨items, commas⟩ => ?_
  exact (closes_expectSymbol .rightBracket).bind fun close => .pure (by simp [Shape.foldNodes])

theorem methodCall_replays (hg : g.Replays k g') (receiver : Node) :
    Parser.Replays k (methodCall g receiver) (methodCall g' (receiver.seen k.view)) := by
  simp only [methodCall, ite_bind]
  refine replays_advanceLeaf.bind fun dot => .current_bind fun t _ => ?_
  refine .ite (by simp) .unexpected ?_
  refine replays_advance.bind fun name => (replays_atTouching .leftParen).bind fun b => ?_
  refine (optional_replays Iff.rfl (argumentList_closes hg).replays).bind fun arguments => ?_
  refine (optionalLambda_replays hg).bind fun block => .pure ?_
  rcases arguments with _ | ⟨leaves, items, close⟩ <;> cases block <;> simp [Shape.foldNodes]

theorem selectorItem_replays (hg : g.Replays k g') (seen : Bool) :
    Parser.Replays k (selectorItem g seen) (selectorItem g' seen) := by
  refine .current_bind fun t _ => hg.value.bind fun key => .ite (by simp) .reject ?_
  refine (replays_expectSymbol .fatArrow).bind fun arrow => hg.value.bind fun value => .pure ?_
  simp [Shape.foldNodes]

theorem selector_closes (hg : g.Replays k g') (subject : Node) :
    Closes k (selector g subject) (selector g' (subject.seen k.view)) := by
  refine replays_advanceLeaf.bind_closes fun question =>
    (replays_expectSymbol .leftBrace).bind_closes fun opener => ?_
  refine (Replays.withBraceBlocks true (.commaListWith (selectorItem_replays hg) rfl)).bind_closes
    fun ⟨items, commas⟩ => ?_
  exact (closes_expectSymbol .rightBrace).bind fun close => .pure (by simp [Shape.foldNodes])

theorem indexAccess_closes (hg : g.Replays k g') (target : Node) :
    Closes k (indexAccess g target) (indexAccess g' (target.seen k.view)) := by
  refine (indexList_closes hg).bind fun ⟨leaves, items, close⟩ => .pure ?_
  simp [Shape.foldNodes]

theorem postfixTail_replays (hg : g.Replays k g') (operand : Node) :
    Parser.Replays k (postfixTail g operand) (postfixTail g' (operand.seen k.view)) := by
  refine .repeatFrom (fun operand => ?_) rfl
  refine (replays_atTouching .leftBracket).bind fun b => .ite Iff.rfl ?_ ?_
  · exact (indexAccess_closes hg operand).replays.map fun _ => rfl
  refine (replays_atSymbol .dot).bind fun b => .ite Iff.rfl ?_ ?_
  · exact (methodCall_replays hg operand).map fun _ => rfl
  refine (replays_atSymbol .question).bind fun b => .ite Iff.rfl ?_ (.pure rfl)
  exact (selector_closes hg operand).replays.map fun _ => rfl

theorem hashKey_replays (hg : g.Replays k g') :
    Parser.Replays k (hashKey g) (hashKey g') := by
  refine .peek fun t next next' _ _ hnext => .ite ?_ ?_ (.ite (by simp) ?_ hg.value)
  · rcases hnext with rfl | hk | ⟨hend, hopen⟩
    · simp
    · simp [hk, TokenKind.isPlainKeyword]
    · simp [hend, hopen]
  · exact replays_advance.bind fun u => .pure (by simp)
  · exact (bareword_takes hg .hashKey).toReplays.bind fun n => postfixTail_replays hg n

theorem hashEntry_replays (hg : g.Replays k g') :
    Parser.Replays k (hashEntry g) (hashEntry g') := by
  refine (hashKey_replays hg).bind fun key => (replays_expectSymbol .fatArrow).bind fun arrow => ?_
  exact hg.value.bind fun value => .pure (by simp [Shape.foldNodes])

theorem hash_takes (hg : g.Replays k g') : TakesWhole k (hash g) (hash g') := by
  refine .advance_bind fun opener => Closes.toReplaysWhole ?_
  refine (Replays.withBraceBlocks true (hashEntry_replays hg).commaList).bind_closes
    fun ⟨entries, commas⟩ => ?_
  exact (closes_expectSymbol .rightBrace).bind fun close => .pure (by simp [Shape.foldNodes])

theorem parenthesized_takes (hg : g.Replays k g') :
    TakesWhole k (parenthesized g) (parenthesized g') := by
  refine .advance_bind fun opener => Closes.toReplaysWhole ?_
  refine (Replays.withBraceBlocks true hg.expression).bind_closes fun inner => ?_
  exact (closes_expectSymbol .rightParen).bind fun close => .pure (by simp [Shape.foldNodes])

theorem primary_takes (hg : g.Replays k g') (place : BarewordPlace) :
    Takes k (primary g place) (primary g' place) := by
  refine .current_bind fun t ht => ?_
  rcases Token.literal?_seen hg ht with ⟨hnone, hnone'⟩ | ⟨e, e', he, he', hlit⟩
  · rw [hnone, hnone', Token.seen_kind]
    dsimp only
    split <;> rename_i hk
    · simpa only [hk] using bareword_takes hg place
    · simpa only [hk] using referenceOperand_takes hg
    · simpa only [hk] using (array_takes hg).toTakes
    · simpa only [hk] using (hash_takes hg).toTakes
    · simpa only [hk] using (parenthesized_takes hg).toTakes
    · exact .of_never gives_unexpected
  · rw [he, he']
    exact .advance_bind fun _ => .lift hlit

theorem operand_takes (hg : g.Replays k g') (place : BarewordPlace) :
    Takes k (operand g place) (operand g' place) :=
  (primary_takes hg place).bind fun n => postfixTail_replays hg n

/-! ## Operators -/

theorem unary_takes (hg : g.Replays k g') (place : BarewordPlace) :
    Takes k (unary g place) (unary g' place) := by
  refine .current_bind fun t _ => ?_
  rw [Token.seen_kind]
  cases Operator.unary? t.kind with
  | none => exact operand_takes hg place
  | some o =>
    exact .advance_bind fun _ => hg.unary.bind fun n => .pure (by simp [Shape.foldNodes])

theorem climb_replays (hg : g.Replays k g') (maxRank : Nat) (command : Bool) (left : Node) :
    Parser.Replays k (climb g maxRank command left)
      (climb g' maxRank command (left.seen k.view)) := by
  refine .repeatFrom (fun left => .current_bind fun t _ => ?_) rfl
  rw [Token.seen_kind]
  cases Operator.binary? t.kind with
  | none => exact .pure rfl
  | some o =>
    refine .ite Iff.rfl (.pure rfl) (replays_advance.bind fun _ => .ite Iff.rfl ?_ ?_)
    · refine .ite (by simp) .reject ((hg.binary _ _).bind fun value => .pure ?_)
      simp [Shape.foldNodes]
    · exact (hg.binary _ _).bind fun right => .pure (by simp [Shape.foldNodes])

theorem binaryIn_takes (hg : g.Replays k g') (place : BarewordPlace) (maxRank : Nat)
    (command : Bool) :
    Takes k (binaryIn g place maxRank command) (binaryIn g' place maxRank command) :=
  (unary_takes hg place).bind fun n => climb_replays hg maxRank command n

theorem climbCommand_replays (hg : g.Replays k g') (maxRank : Nat) (left : Node) :
    Parser.Replays k (climbCommand g maxRank left)
      (climbCommand g' maxRank (left.seen k.view)) := by
  refine .repeatFrom (fun left => .current_bind fun t _ => ?_) rfl
  rw [Token.seen_kind]
  cases Operator.command? t.kind with
  | none => exact .pure rfl
  | some o =>
    refine .ite Iff.rfl (.pure rfl) (replays_advance.bind fun _ => ?_)
    exact (hg.command _).bind fun right => .pure (by simp [Shape.foldNodes])

theorem command_takes (hg : g.Replays k g') (maxRank : Nat) :
    Takes k (command g maxRank) (command g' maxRank) :=
  (binaryIn_takes hg .value _ true).bind fun n => climbCommand_replays hg maxRank n

/-! ## Interpolations -/

theorem interpolatedExpression_replays (hg : g.Replays k g') :
    Parser.Replays k (interpolatedExpression g) (interpolatedExpression g') := by
  have finish (n : Node) : Parser.Replays k
      (do
        let left ← current
        if left.kind = .endOfInput then return n else unexpected left .closingBrace)
      (do
        let left ← current
        if left.kind = .endOfInput then return n.seen k.view else unexpected left .closingBrace) :=
    .current_bind fun t _ => .ite (by simp) (.pure rfl) .unexpected
  refine .peek fun t next next' _ hstart hnext => .ite (by simp) .reject (.ite ?_ ?_ ?_)
  · rcases hnext with rfl | hk | ⟨hend, hopen⟩
    · simp [k.moves.start hstart]
    · simp [hk, TokenKind.isPlainKeyword]
    · simp [hend, hopen]
  · refine replays_advance.bind fun _ => Replays.bind ?_ finish
    rw [Token.seen_variableNode]
    exact (postfixTail_replays hg _).bind fun n => climb_replays hg _ _ n
  · exact (binaryIn_takes hg .value _ _).toReplays.bind finish

/-- Tokens that only an end of input comes after are read elsewhere from where they stand there. -/
theorem alike_ofTokens {us : List Token} {last : Token} (hus : ∀ t ∈ us, t.LiesIn k.toTract)
    (hlast : last.kind = .endOfInput) (hends : (k.first : Int) ≤ last.span.start) :
    (TokenStream.ofTokens (us ++ [last])).Alike (k.closed (last.seen k.view))
      (TokenStream.ofTokens ((us ++ [last]).map (Token.seen k.view))) where
  fit := ⟨by rwa [TokenStream.ofTokens_last], by rwa [TokenStream.ofTokens_last],
    by rwa [TokenStream.ofTokens_rest]⟩
  rest := by simp [Replay.closed]
  final := by simp [Replay.closed]
  last _ := by simp [Replay.closed]
  behind := nofun
  touches _ := rfl
  closes h := (h rfl).elim
  unlinked h := (h rfl).elim

theorem interpolated_seen (hg : ∀ final, g.Replays (k.closed final) g') {f : Fragment}
    {ts : List Token} {n : Node} (hf : f.LiesIn k.toTract) (hp : f.piece = .interpolation ts)
    (h : interpolated g ts = .ok n) :
    interpolated g' (ts.map (Token.seen k.view)) = .ok (n.seen k.view) := by
  obtain ⟨us, q, rfl, hus, -, hq⟩ := hf.interpolation hp
  obtain ⟨r, hr⟩ := runOn_eq_ok.mp h
  have hends : (k.first : Int) ≤ (Token.endAt q).span.start := Int.ofNat_le.mpr hq
  obtain ⟨r', hr', -⟩ := (interpolatedExpression_replays (hg _)).gives
    (alike_ofTokens hus rfl hends) hr (.inl rfl)
  exact runOn_eq_ok.mpr ⟨r', hr'⟩

end Parse

end ManifestTree
