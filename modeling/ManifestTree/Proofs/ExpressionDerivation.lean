import ManifestTree.Proofs.Reading

/-!
# Expressions derive

What the parser of each form of expression reads derives the node it answers.  The contract
`Grammar.Sound` is what every construct asks of the grammar for the constructs within it.  For
operators it also says that the next token binds too loosely to go on, and this is why the operands
of an operator have the ranks they should.
-/

namespace ManifestTree

open Parse ManifestTree.Parser TokenStream

/-! ## The contract -/

namespace TokenStream

/-- The next token is no operator of at most a rank between operands.  With the flag set the
operators `and` and `or` do not count. -/
def Stops (s : TokenStream) (maxRank : Nat) (command : Bool) : Prop :=
  ∀ o, Operator.binary? s.current.kind = some o →
    (command → Operator.command? s.current.kind = none) → maxRank < o.rank

/-- An operator between operands that comes next may have an expression of a rank on its left. -/
def AdmitsLeft (s : TokenStream) (rank : Nat) (command : Bool) : Prop :=
  ∀ o, Operator.binary? s.current.kind = some o →
    (command → Operator.command? s.current.kind = none) → o.admitsLeft rank

theorem admitsLeft_zero (s : TokenStream) (command : Bool) : s.AdmitsLeft 0 command :=
  fun _ ho _ => Operator.admitsLeft_zero (Operator.binary?_pos ho)

/-- What stops the right operand of an operator takes the whole on its left. -/
theorem Stops.admitsLeft {s : TokenStream} {k : TokenKind} {o : Operator} {command : Bool}
    (h : s.Stops o.rightRank command) (ho : Operator.binary? k = some o) :
    s.AdmitsLeft o.rank command :=
  fun _ ho' hc => Operator.admitsLeft_of_rightRank_lt ho ho' (h _ ho' hc)

/-- The next token is no command operator of at most a rank. -/
def StopsCommand (s : TokenStream) (maxRank : Nat) : Prop :=
  ∀ o, Operator.command? s.current.kind = some o → maxRank < o.rank

theorem Closed.tail {s : TokenStream} (hs : s.Closed) : s.tail.Closed := by
  obtain ⟨rest, last, stop⟩ := s
  cases rest with
  | nil => exact hs
  | cons t ts => exact ⟨hs.last, fun u hu => hs.rest u (List.mem_cons_of_mem _ hu)⟩

/-- A series between two brackets is a group. -/
theorem Closed.reads_group {s s₁ : TokenStream} {opens closes : Symbol} {l : Series}
    (hs : s.Closed) (ho : s.current.kind = .symbol opens) (hl : s.tail.Reads l.tokens s₁)
    (hc : s₁.current.kind = .symbol closes) :
    s.Reads (Parse.Group.mk s.current l s₁.current).tokens s₁.tail ∧
      (Parse.Group.mk s.current l s₁.current).Between opens closes := by
  have hr := (hs.reads_tail (by simp [ho])).trans
    (hl.trans ((hl.closed hs.tail).reads_tail (by simp [hc])))
  exact ⟨hr, ho, hc⟩

/-- The first of the tokens read is the next token. -/
theorem Reads.head? {s s' : TokenStream} {ts : List Token} (h : s.Reads ts s') (ht : ts ≠ []) :
    ts.head? = some s.current := by
  obtain ⟨t, us, rfl⟩ := List.exists_cons_of_ne_nil ht
  simp [current, h.rest]

/-- A construct that is there if a condition holds. -/
theorem reads_optional {c : Prop} [Decidable c] {p : Parser Node} {scope : Scope}
    {s s' : TokenStream} {P : List Token → Node → Prop} {r : Option Node} (hs : s.Closed)
    (hp : ∀ s n s', s.Closed → Gives p scope s n s' → ∃ ts, s.Reads ts s' ∧ P ts n)
    (h : Gives (if c then some <$> p else pure none) scope s r s') :
    ∃ o : Option Segment, s.Reads (tokensOf o) s' ∧ r = o.map Prod.snd ∧ ∀ x ∈ o, P x.1 x.2 := by
  simp only [gives_ite, gives_map, gives_pure] at h
  rcases h with ⟨_, n, hn, rfl⟩ | ⟨_, rfl, rfl⟩
  · obtain ⟨ts, hr, hn⟩ := hp _ _ _ hs hn
    exact ⟨some (ts, n), hr, rfl, by simpa using hn⟩
  · exact ⟨none, .refl s, rfl, by simp⟩

/-- A symbol that is there if it is the next token. -/
theorem reads_optionalLeaf {x : Symbol} {scope : Scope} {s s' : TokenStream} {r : Option Leaf}
    (hs : s.Closed)
    (h : Gives (if decide (s.current.kind = .symbol x) = true then some <$> advanceLeaf
      else pure none) scope s r s') :
    ∃ o : Option Token, s.Reads o.toList s' ∧ r = o.map Token.leaf ∧
      ∀ t ∈ o, t.kind = .symbol x := by
  simp only [gives_ite, gives_map, gives_advanceLeaf, gives_pure, decide_eq_true_eq] at h
  rcases h with ⟨hk, _, ⟨rfl, rfl⟩, rfl⟩ | ⟨_, rfl, rfl⟩
  · exact ⟨some s.current, hs.reads_tail (by simp [hk]), rfl, by simpa using hk⟩
  · exact ⟨none, .refl s, rfl, by simp⟩

end TokenStream

/-- Every parser of the grammar reads what derives its answer, and reads as far as the ranks
allow. -/
structure Grammar.Sound (g : Grammar) : Prop where
  binary : ∀ {scope s n s' maxRank command}, s.Closed →
    Gives (g.binary maxRank command) scope s n s' →
    s.Yields (.expression command) n s' ∧ n.rank ≤ maxRank ∧ s'.Stops maxRank command
  command : ∀ {scope s n s' maxRank}, s.Closed → Gives (g.command maxRank) scope s n s' →
    s.Yields .statementExpression n s' ∧ n.commandRank ≤ maxRank ∧ s'.StopsCommand maxRank
  unary : ∀ {scope s n s'}, s.Closed → Gives g.unary scope s n s' → s.Yields .unary n s'
  type : ∀ {scope s n s'}, s.Closed → Gives g.type scope s n s' → s.Yields .type n s'
  statement : ∀ {scope s n s'}, s.Closed → Gives g.statement scope s n s' →
    s.Yields .statement n s'
  interpolated : ∀ {p inner n}, (∀ t ∈ inner, t.Closed) →
    g.interpolated (inner ++ [Token.endAt p]) = .ok n → Derives (.expression false) inner n

variable {g : Grammar} {scope : Scope} {s s' : TokenStream} {n : Node}

theorem Grammar.Sound.expression (hg : g.Sound) : ∀ s n s', s.Closed →
    Gives g.expression scope s n s' → s.Yields (.expression false) n s' :=
  fun _ _ _ hs h => (hg.binary hs h).1

theorem Grammar.Sound.value (hg : g.Sound) : ∀ s n s', s.Closed → Gives g.value scope s n s' →
    ∃ ts, s.Reads ts s' ∧ Derives (.expression false) ts n ∧ n.rank ≤ Operator.valueRank := by
  intro s n s' hs h
  obtain ⟨⟨ts, hr, hd⟩, hn, -⟩ := hg.binary hs h
  exact ⟨ts, hr, hd, hn⟩

namespace Parse

/-! ## Indices and arguments -/

theorem indexList_reads (hg : g.Sound) (hs : s.Closed) {b : Bracketed}
    (h : Gives (indexList g) scope s b s') :
    ∃ i : Group, s.Reads i.tokens s' ∧ b = ⟨i.leaves, i.nodes, i.closer⟩ ∧
      i.Between .leftBracket .rightBracket ∧ i.inner.SeparatedBy .comma ∧ i.inner.Tight ∧
      ∀ x ∈ i.inner.items, Derives (.expression false) x.1 x.2 := by
  simp only [indexList, gives_bind, gives_expectSymbol, gives_withBraceBlocks, gives_pure] at h
  obtain ⟨_, _, ⟨ho, rfl, rfl⟩, r, s₁, hl, _, _, ⟨hc, rfl, rfl⟩, rfl, rfl⟩ := h
  obtain ⟨l, hr, rfl, hsep, htight, hd⟩ := commaSeparated_reads hg.expression hs.tail hl
  obtain ⟨hr, hb⟩ := hs.reads_group ho hr hc
  exact ⟨_, hr, rfl, hb, hsep, htight, hd⟩

theorem argumentList_reads (hg : g.Sound) (hs : s.Closed) {b : Bracketed}
    (h : Gives (argumentList g) scope s b s') :
    ∃ i : Group, s.Reads i.tokens s' ∧ b = ⟨i.leaves, i.nodes, i.closer⟩ ∧
      i.Between .leftParen .rightParen ∧ i.inner.SeparatedBy .comma ∧
      ∀ x ∈ i.inner.items, Derives (.expression false) x.1 x.2 := by
  simp only [argumentList, gives_bind, gives_expectSymbol, gives_withBraceBlocks, gives_pure] at h
  obtain ⟨_, _, ⟨ho, rfl, rfl⟩, r, s₁, hl, _, _, ⟨hc, rfl, rfl⟩, rfl, rfl⟩ := h
  obtain ⟨l, hr, rfl, hsep, hd⟩ := commaList_reads hg.expression hs.tail hl
  obtain ⟨hr, hb⟩ := hs.reads_group ho hr hc
  exact ⟨_, hr, rfl, hb, hsep, hd⟩

/-! ## Types and parameters -/

theorem typeArgument_yields (hg : g.Sound) : ∀ s n s', s.Closed →
    Gives (typeArgument g) scope s n s' → s.Yields .typeArgument n s' := by
  intro s n s' hs h
  simp only [typeArgument, gives_bind, gives_current, gives_ite, gives_pure, gives_reject,
    and_false, or_false] at h
  obtain ⟨_, _, ⟨rfl, rfl⟩, ⟨_, h⟩ | ⟨_, a, s₁, ha, hk, rfl, rfl⟩⟩ := h
  · obtain ⟨ts, hr, hd⟩ := hg.type hs h
    exact ⟨ts, hr, .nestedType hd⟩
  · obtain ⟨ts, hr, hd⟩ := hg.unary hs ha
    simp only [Bool.and_eq_true, decide_eq_true_eq] at hk
    exact ⟨ts, hr, .literalArgument hd hk.1 hk.2⟩

theorem typeExpression_yields (hg : g.Sound) (hs : s.Closed)
    (h : Gives (typeExpression g) scope s n s') : s.Yields .type n s' := by
  simp only [typeExpression, gives_bind, gives_expect, gives_atSymbol, gives_ite,
    gives_advanceLeaf, gives_withBraceBlocks, gives_expectSymbol, gives_pure] at h
  obtain ⟨_, _, ⟨ht, rfl, rfl⟩, _, _, ⟨rfl, rfl⟩, h⟩ := h
  have hr₀ := hs.reads_tail (by simp [ht])
  rcases h with ⟨ho, _, _, ⟨rfl, rfl⟩, r, s₁, hl, _, _, ⟨hc, rfl, rfl⟩, rfl, rfl⟩ | ⟨_, rfl, rfl⟩
  · obtain ⟨l, hr, rfl, hsep, hd⟩ := commaList_reads (typeArgument_yields hg) hs.tail.tail hl
    obtain ⟨hr, hb⟩ := hs.tail.reads_group (by simpa using ho) hr hc
    exact ⟨_, hr₀.trans hr, .appliedType _ ⟨_, l, _⟩ ht hb hsep hd⟩
  · exact ⟨_, hr₀, .typeName _ ht⟩

theorem parameter_yields (hg : g.Sound) : ∀ s n s', s.Closed →
    Gives (parameter g) scope s n s' → s.Yields .parameter n s' := by
  intro s n s' hs h
  simp only [parameter, ite_bind, gives_bind, gives_current, gives_atSymbol] at h
  obtain ⟨_, _, ⟨rfl, rfl⟩, a, s₁, ha, _, _, ⟨rfl, rfl⟩, b, s₂, hb, _, _, ⟨rfl, rfl⟩, h⟩ := h
  obtain ⟨type, hr₁, rfl, htype⟩ := reads_optional hs (fun _ _ _ => typeExpression_yields hg) ha
  obtain ⟨star, hr₂, rfl, hstar⟩ := reads_optionalLeaf (hr₁.closed hs) hb
  have hr := hr₁.trans hr₂
  simp only [gives_ite, gives_unexpected, and_false, false_or, gives_bind, gives_advance,
    gives_atSymbol, gives_advanceLeaf, gives_withBraceBlocks, gives_pure, Decidable.not_not] at h
  obtain ⟨hk, _, _, ⟨rfl, rfl⟩, _, _, ⟨rfl, rfl⟩, h⟩ := h
  have hr := hr.trans ((hr.closed hs).reads_tail (by simp [hk]))
  have hfirst := hr.head? (by simp)
  have hs₂ := hr.closed hs
  rcases h with ⟨he, _, _, ⟨rfl, rfl⟩, value, s₃, hv, rfl, rfl⟩ | ⟨_, rfl, rfl⟩
  · have he : s₂.tail.current.kind = .symbol .equals := by simpa using he
    obtain ⟨ts, hr₃, hd, hn⟩ := hg.value _ _ _ hs₂.tail hv
    have hr := hr.trans ((hs₂.reads_tail (by simp [he])).trans hr₃)
    have hd := Derives.parameter s.current s₂.current type star
      (some (s₂.tail.current, ts, value)) htype hstar hk (by simpa using he) (by simpa using hd)
      (by simpa using hn) hfirst
    refine ⟨_, ?_, by simpa [Option.toList_map] using hd⟩
    simpa using hr
  · have hd := Derives.parameter s.current s₂.current type star none htype hstar hk (by simp)
      (by simp) (by simp) hfirst
    refine ⟨_, ?_, by simpa [Option.toList_map] using hd⟩
    simpa using hr

theorem parameterList_yields (hg : g.Sound) (opens closes : Symbol) (hs : s.Closed)
    (h : Gives (parameterList g opens closes) scope s n s') :
    s.Yields (.parameters opens closes) n s' := by
  simp only [parameterList, gives_bind, gives_expectSymbol, gives_pure] at h
  obtain ⟨_, _, ⟨ho, rfl, rfl⟩, r, s₁, hl, _, _, ⟨hc, rfl, rfl⟩, rfl, rfl⟩ := h
  obtain ⟨l, hr, rfl, hsep, hd⟩ := commaList_reads (parameter_yields hg) hs.tail hl
  obtain ⟨hr, hb⟩ := hs.reads_group ho hr hc
  exact ⟨_, hr, .parameters _ _ _ hb hsep hd⟩

/-! ## Bodies and lambdas -/

theorem body_yields (hg : g.Sound) (hs : s.Closed) (h : Gives (body g) scope s n s') :
    s.Yields .body n s' := by
  simp only [body, gives_bind, gives_current, gives_ite, gives_reject, and_false, false_or,
    gives_advance, gives_withBraceBlocks, gives_expectSymbol, gives_pure, Decidable.not_not] at h
  obtain ⟨_, _, ⟨rfl, rfl⟩, ho, _, _, ⟨rfl, rfl⟩, r, s₁, hl, _, _, ⟨hc, rfl, rfl⟩, rfl, rfl⟩ := h
  obtain ⟨items, hr, hitems, ht, -⟩ := untilClosed_reads (P := fun _ ts n _ =>
    Derives .statement ts n) (fun _ _ _ _ hs _ h => by
      simp only [gives_bind, gives_pure] at h
      obtain ⟨n, _, hn, rfl, rfl⟩ := h
      exact hg.statement hs hn) hs.tail hl
  have hl : Series.tokens ⟨items, []⟩ = items.flatMap Prod.fst := by
    rw [Series.tokens, weave_nil, List.flatMap]
  obtain ⟨hr, hb⟩ := hs.reads_group ho (hl ▸ hr) hc
  rw [hitems]
  exact ⟨_, hr, .body ⟨_, ⟨items, []⟩, _⟩ hb rfl (ht.forall_mem fun _ _ _ _ h => h)⟩

theorem lambda_yields (hg : g.Sound) : ∀ s n s', s.Closed → Gives (lambda g) scope s n s' →
    s.Yields .lambda n s' := by
  intro s n s' hs h
  simp only [lambda, ite_bind, gives_bind, gives_atSymbol, gives_pure] at h
  obtain ⟨_, _, ⟨rfl, rfl⟩, a, s₁, ha, block, s₂, hb, rfl, rfl⟩ := h
  obtain ⟨parameters, hr₁, rfl, hp⟩ :=
    reads_optional hs (fun _ _ _ => parameterList_yields hg .pipe .pipe) ha
  obtain ⟨ts, hr₂, hd⟩ := body_yields hg (hr₁.closed hs) hb
  refine ⟨_, hr₁.trans hr₂, ?_⟩
  simpa [Function.comp_def] using Derives.lambda parameters hp hd

theorem optionalLambda_reads (hg : g.Sound) (hs : s.Closed) {r : Option Node}
    (h : Gives (optionalLambda g) scope s r s') :
    ∃ o : Option Segment, s.Reads (tokensOf o) s' ∧ r = o.map Prod.snd ∧
      ∀ x ∈ o, Derives .lambda x.1 x.2 := by
  simp only [optionalLambda, gives_bind, gives_atSymbol, gives_read, gives_ite, gives_map,
    gives_pure] at h
  obtain ⟨_, _, ⟨rfl, rfl⟩, h⟩ := h
  have some_reads {n : Node} (hn : Gives (lambda g) scope s n s') (hr : r = some n) :
      ∃ o : Option Segment, s.Reads (tokensOf o) s' ∧ r = o.map Prod.snd ∧
        ∀ x ∈ o, Derives .lambda x.1 x.2 := by
    obtain ⟨ts, hr₁, hd⟩ := lambda_yields hg _ _ _ hs hn
    exact ⟨some (ts, n), hr₁, hr, by simpa using hd⟩
  rcases h with ⟨_, n, hn, hr⟩ | ⟨_, _, _, ⟨rfl, rfl⟩, _, _, ⟨rfl, rfl⟩, h⟩
  · exact some_reads hn hr
  rcases h with ⟨_, n, hn, hr⟩ | ⟨_, rfl, rfl⟩
  · exact some_reads hn hr
  · exact ⟨none, .refl s, rfl, by simp⟩

/-! ## Strings and heredocs -/

/-- What an interpolation holds, if it can be parsed. -/
def innerOf (g : Grammar) (f : Fragment) : Node := (g.interpolated f.tokens).toOption.getD default

theorem toNode_eq {f : Fragment} (h : f.toNode g = .ok n) :
    n = f.nodeOf (innerOf g f) ∧
      ∀ ts, f.piece = .interpolation ts → g.interpolated ts = .ok (innerOf g f) := by
  obtain ⟨text, span, piece⟩ := f
  cases piece with
  | interpolation ts =>
    simp only [Fragment.toNode, Fragment.piece, Fragment.interpolationNode] at h
    obtain ⟨inner, hi, h⟩ := bind_eq_ok.mp h
    have he : innerOf g (.mk text span (.interpolation ts)) = inner := by
      simp [innerOf, Fragment.tokens, Fragment.piece, hi, Except.toOption]
    rw [he]
    refine ⟨(Except.ok.inj h).symm, ?_⟩
    rintro _ ⟨⟩
    exact hi
  | _ =>
    simp only [Fragment.toNode, Fragment.piece, Except.ok.injEq] at h
    exact ⟨h.symm, by simp [Fragment.piece]⟩

theorem toNodes_eq {fs : List Fragment} {ns : List Node} (h : Fragment.toNodes g fs = .ok ns) :
    ns = fs.map (fun f => f.nodeOf (innerOf g f)) ∧
      ∀ f ∈ fs, ∀ ts, f.piece = .interpolation ts → g.interpolated ts = .ok (innerOf g f) := by
  unfold Fragment.toNodes at h
  induction fs generalizing ns with
  | nil =>
    simp only [List.mapM_nil, Pure.pure, Except.pure, Except.ok.injEq] at h
    exact ⟨h.symm, by simp⟩
  | cons f fs ih =>
    rw [List.mapM_cons] at h
    obtain ⟨m, hf, h⟩ := bind_eq_ok.mp h
    obtain ⟨ms, hfs, h⟩ := bind_eq_ok.mp h
    cases h
    obtain ⟨rfl, hi⟩ := toNode_eq hf
    obtain ⟨rfl, his⟩ := ih hfs
    exact ⟨rfl, by simpa using ⟨hi, his⟩⟩

/-- Interpolations of a closed token that can be parsed derive what they hold. -/
theorem derives_inner (hg : g.Sound) {t : Token} (ht : t.Closed) {fs : List Fragment}
    (hfs : ∀ f ∈ fs, f.deep ⊆ t.deepFragments)
    (h : ∀ f ∈ fs, ∀ ts, f.piece = .interpolation ts → g.interpolated ts = .ok (innerOf g f)) :
    ∀ f ∈ fs, ∀ ts, f.piece = .interpolation ts →
      Derives (.expression false) ts.dropLast (innerOf g f) := by
  intro f hf ts hp
  obtain ⟨inner, rfl, hc⟩ := ht.inner (hfs f hf) hp
  rw [List.dropLast_concat]
  exact hg.interpolated hc (h f hf _ hp)

theorem stringNode_derives (hg : g.Sound) {t : Token} (ht : t.Closed) (hk : t.kind = .string)
    (h : t.stringNode g = .ok n) : Derives .string [t] n := by
  unfold Token.stringNode at h
  obtain ⟨ns, hfs, h⟩ := bind_eq_ok.mp h
  cases h
  obtain ⟨rfl, hi⟩ := toNodes_eq hfs
  exact .string t (innerOf g) hk (fun f hf => ht.2 f (Token.deep_subset hf f.self_mem_deep))
    (derives_inner hg ht (fun _ => Token.deep_subset) hi)

theorem heredocNode_derives (hg : g.Sound) {t : Token} (ht : t.Closed) (hk : t.kind = .heredoc)
    {tag : HeredocTag} {b : HeredocBody} (hb : t.detail = .heredoc tag (some b))
    (h : t.heredocNode g tag b = .ok n) : Derives .operand [t] n := by
  unfold Token.heredocNode at h
  obtain ⟨ns, hfs, h⟩ := bind_eq_ok.mp h
  cases h
  obtain ⟨rfl, hi⟩ := toNodes_eq hfs
  have hbody := Token.mem_body? hb
  exact .heredoc t tag b (innerOf g) hk hb
    (fun f hf => ht.2 f (Token.body_deep_subset hbody hf f.self_mem_deep))
    (derives_inner hg ht (fun _ => Token.body_deep_subset hbody) hi)

/-- The node that a token makes alone. -/
theorem literal_derives (hg : g.Sound) {t : Token} (ht : t.Closed) {r : Except Failure Node}
    (hr : t.literal? g = some r) (h : r = .ok n) : Derives .operand [t] n := by
  unfold Token.literal? at hr
  split at hr
  case h_1 hk => cases hr; cases h; exact .variable t hk
  case h_2 hk =>
    cases hr
    unfold Token.integerNode at h
    split at h
    · cases h; exact .integer t _ hk ‹_›
    · cases h
  case h_3 hk => cases hr; cases h; exact .float t hk
  case h_4 hk => cases hr; exact .quoted (stringNode_derives hg ht hk h)
  case h_5 hk hd => cases hr; exact heredocNode_derives hg ht hk hd h
  case h_6 hk => cases hr; cases h; exact .regex t hk
  case h_7 hk => cases hr; cases h; exact .boolean t true hk
  case h_8 hk => cases hr; cases h; exact .boolean t false hk
  case h_9 hk => cases hr; cases h; exact .undef t hk
  case h_10 hk => cases hr; cases h; exact .default t hk
  case h_11 => cases hr

/-! ## Names and attributes -/

theorem functionCall_reads (hg : g.Sound) (hs : s.Closed) {t : Token} (ht : t.kind = .name)
    (h : Gives (functionCall g t) scope s n s') :
    ∃ ts, s.Reads ts s' ∧ Derives .operand (t :: ts) n := by
  simp only [functionCall, gives_bind, gives_pure] at h
  obtain ⟨b, s₁, hb, block, s₂, hblock, rfl, rfl⟩ := h
  obtain ⟨a, hr₁, rfl, hbetween, hsep, hd⟩ := argumentList_reads hg hs hb
  obtain ⟨o, hr₂, rfl, ho⟩ := optionalLambda_reads hg (hr₁.closed hs) hblock
  refine ⟨_, hr₁.trans hr₂, ?_⟩
  simpa [Function.comp_def] using Derives.functionCall t a o ht hbetween hsep hd ho

theorem bareword_yields (hg : g.Sound) (hs : s.Closed) {place : BarewordPlace}
    (hk : s.current.kind = .name) (h : Gives (bareword g place) scope s n s') :
    s.Yields .operand n s' := by
  simp only [bareword, gives_bind, gives_advance, gives_atTouching] at h
  obtain ⟨_, _, ⟨rfl, rfl⟩, _, _, ⟨rfl, rfl⟩, h⟩ := h
  have hr := hs.reads_tail (by simp [hk])
  split at h
  · obtain ⟨rfl, rfl⟩ := gives_pure.mp h
    exact ⟨_, hr, .word _ hk⟩
  · simp only [gives_ite, gives_pure] at h
    rcases h with ⟨_, h⟩ | ⟨_, rfl, rfl⟩
    · obtain ⟨ts, hr₁, hd⟩ := functionCall_reads hg hs.tail hk h
      exact ⟨_, hr.trans hr₁, hd⟩
    · exact ⟨_, hr, .name _ hk⟩

/-- The reading of a bare word where it cannot begin a call. -/
theorem named_attributeName (t : Token) : t.named .attributeName = t.bareword := rfl

/-- A name or keyword is no end of input. -/
theorem ne_end_of_isWord {k : TokenKind} (h : k = .name ∨ k.isKeyword = true) :
    k ≠ .endOfInput := by
  rintro rfl
  simp [TokenKind.isKeyword] at h

theorem attributeItem_yields (hg : g.Sound) : ∀ s n s', s.Closed →
    Gives (attributeItem g) scope s n s' → s.Yields .attribute n s' := by
  intro s n s' hs h
  simp only [attributeItem, ← bind_assoc, ite_bind] at h
  simp only [gives_bind, gives_current, gives_expectAny, gives_pure] at h
  obtain ⟨_, _, ⟨rfl, rfl⟩, name, s₁, hname, arrow, s₂, ⟨ha, rfl, rfl⟩, value, s₃, hv, rfl,
    rfl⟩ := h
  have hname : s.Yields .attributeName name s₁ ∧ name.span = s.current.span := by
    simp only [gives_ite, gives_bind, gives_advance, gives_lift, gives_pure, gives_unexpected,
      and_false, or_false, named_attributeName] at hname
    rcases hname with ⟨hk, _, _, ⟨rfl, rfl⟩, rfl, rfl⟩ |
      ⟨_, ⟨hk, _, _, ⟨rfl, rfl⟩, hn, rfl⟩ | ⟨_, hk, _, _, ⟨rfl, rfl⟩, rfl, rfl⟩⟩
    · simp only [Bool.or_eq_true, decide_eq_true_eq] at hk
      have hr := hs.reads_tail (ne_end_of_isWord hk)
      exact ⟨⟨_, hr, .wordAttribute _ hk⟩, rfl⟩
    · have hr := hs.reads_tail (by simp [hk])
      have hd := stringNode_derives hg (hr.closed_of_mem hs (List.mem_singleton_self _)) hk hn
      refine ⟨⟨_, hr, .stringAttribute hd⟩, ?_⟩
      cases hd
      rfl
    · exact ⟨⟨_, hs.reads_tail (by simp [hk]), .starAttribute _ hk⟩, rfl⟩
  obtain ⟨⟨ns, hr₁, hn⟩, hspan⟩ := hname
  rw [← hspan]
  have hs₁ := hr₁.closed hs
  have hr₂ := hs₁.reads_tail (by rintro he; simp [he] at ha)
  obtain ⟨vs, hr₃, hd, hrank⟩ := hg.value _ _ _ hs₁.tail hv
  refine ⟨_, hr₁.trans (hr₂.trans hr₃), .attributeItem _ _ hn ?_ hd hrank⟩
  simp only [List.mem_cons, List.not_mem_nil, or_false] at ha
  rcases ha with ha | ha <;> simp [ha, AttributeOperator.arrow]

theorem attributes_reads (hg : g.Sound) (hs : s.Closed) {closes : TokenKind → Bool}
    {r : List Node × List Leaf} (h : Gives (attributes g closes) scope s r s') :
    ∃ l : Series, s.Reads l.tokens s' ∧ r = (l.nodes, l.leaves) ∧ l.SeparatedBy .comma ∧
      ∀ i ∈ l.items, Derives .attribute i.1 i.2 :=
  commaList_reads (attributeItem_yields hg) hs h

/-! ## References and collectors -/

theorem collectorQuery_reads (hg : g.Sound) (hs : s.Closed) {closes : Symbol}
    {r : Option Node × Token} (h : Gives (collectorQuery g closes) scope s r s') :
    ∃ (o : Option Segment) (closer : Token), s.Reads (tokensOf o ++ [closer]) s' ∧
      r = (o.map Prod.snd, closer) ∧ (∀ x ∈ o, Derives (.expression false) x.1 x.2) ∧
      closer.kind = .symbol closes := by
  simp only [collectorQuery, ite_bind, gives_bind, gives_atSymbol, gives_ite, gives_map,
    gives_withBraceBlocks, gives_expectSymbol, gives_pure] at h
  obtain ⟨_, _, ⟨rfl, rfl⟩, query, s₁, hq, closer, s₂, ⟨hc, rfl, rfl⟩, rfl, rfl⟩ := h
  rcases hq with ⟨_, rfl, rfl⟩ | ⟨_, n, hn, rfl⟩
  · exact ⟨none, s.current, hs.reads_tail (by simp [hc]), rfl, by simp, hc⟩
  · obtain ⟨ts, hr, hd⟩ := hg.expression _ _ _ hs hn
    exact ⟨some (ts, n), s₁.current, hr.trans ((hr.closed hs).reads_tail (by simp [hc])), rfl,
      by simpa using hd, hc⟩

theorem collector_reads (hg : g.Sound) (hs : s.Closed) {t : Token} (ht : t.kind = .reference)
    (hk : s.current.kind = .symbol .leftCollect ∨ s.current.kind = .symbol .leftExport)
    (h : Gives (collector g t.referenceIdentifier) scope s n s') :
    ∃ ts, s.Reads ts s' ∧ Derives .operand (t :: ts) n := by
  simp only [collector, gives_bind, gives_advance, gives_atSymbol, gives_read, gives_ite,
    gives_advanceLeaf, gives_expectSymbol, gives_pure] at h
  obtain ⟨_, _, ⟨rfl, rfl⟩, r, s₁, hq, _, _, ⟨rfl, rfl⟩, _, _, ⟨rfl, rfl⟩, h⟩ := h
  obtain ⟨query, closer, hr₁, rfl, hquery, hc⟩ := collectorQuery_reads hg hs.tail hq
  have hr := (hs.reads_tail (by rcases hk with hk | hk <;> simp [hk])).trans hr₁
  have hs₁ := hr.closed hs
  have ho : s.current.kind = .symbol (if decide (s.current.kind = .symbol .leftExport) = true
      then .leftExport else .leftCollect) := by
    rcases hk with hk | hk <;> simp [hk]
  have hc : closer.kind = .symbol (if decide (s.current.kind = .symbol .leftExport) = true
      then .rightExport else .rightCollect) := by
    rw [hc]
  rcases h with ⟨hb, _, _, ⟨rfl, rfl⟩, r, s₂, hl, close, _, ⟨hclose, rfl, rfl⟩, rfl, rfl⟩ |
    ⟨_, rfl, rfl⟩
  · obtain ⟨l, hr₂, rfl, hsep, hd⟩ := attributes_reads hg hs₁.tail hl
    simp only [Bool.and_eq_true, decide_eq_true_eq] at hb
    obtain ⟨hr₂, hbetween⟩ := hs₁.reads_group hb.1 hr₂ hclose
    refine ⟨_, hr.trans hr₂, ?_⟩
    simpa [groupTokens, groupLeaves, Group.leaves, Group.nodes] using
      Derives.collector t s.current closer _ query (some ⟨_, l, _⟩) ht ho hc hquery
        (by simpa using hbetween) (by simpa using hsep) (by simpa using hd)
  · refine ⟨_, hr, ?_⟩
    simpa [groupTokens, groupLeaves] using
      Derives.collector t s.current closer _ query none ht ho hc hquery (by simp) (by simp)
        (by simp)

theorem referenceOperand_yields (hg : g.Sound) (hs : s.Closed) (hk : s.current.kind = .reference)
    (h : Gives (referenceOperand g) scope s n s') : s.Yields .operand n s' := by
  simp only [referenceOperand, gives_bind, gives_advance, gives_atTouching, gives_atSymbol,
    gives_ite, gives_pure] at h
  obtain ⟨_, _, ⟨rfl, rfl⟩, _, _, ⟨rfl, rfl⟩, h⟩ := h
  have hr := hs.reads_tail (by simp [hk])
  rcases h with ⟨_, b, s₁, hb, rfl, rfl⟩ | ⟨_, _, _, ⟨rfl, rfl⟩, _, _, ⟨rfl, rfl⟩, h⟩
  · obtain ⟨i, hr₁, rfl, hbetween, hsep, htight, hd⟩ := indexList_reads hg hs.tail hb
    exact ⟨_, hr.trans hr₁, .reference _ i hk hbetween hsep htight hd⟩
  rcases h with ⟨ho, h⟩ | ⟨_, rfl, rfl⟩
  · simp only [Bool.or_eq_true, decide_eq_true_eq] at ho
    obtain ⟨ts, hr₁, hd⟩ := collector_reads hg hs.tail hk ho h
    exact ⟨_, hr.trans hr₁, hd⟩
  · exact ⟨_, hr, .referenceName _ hk⟩

/-! ## What follows an operand -/

theorem array_yields (hg : g.Sound) (hs : s.Closed) (hk : s.current.kind = .symbol .leftBracket)
    (h : Gives (array g) scope s n s') : s.Yields .operand n s' := by
  simp only [array, gives_bind, gives_advance, gives_expectSymbol, gives_withBraceBlocks,
    gives_pure] at h
  obtain ⟨_, _, ⟨rfl, rfl⟩, r, s₁, hl, _, _, ⟨hc, rfl, rfl⟩, rfl, rfl⟩ := h
  obtain ⟨l, hr, rfl, hsep, hd⟩ := commaList_reads hg.value hs.tail hl
  obtain ⟨hr, hb⟩ := hs.reads_group hk hr hc
  exact ⟨_, hr, .array ⟨_, l, _⟩ hb hsep (fun i hi => (hd i hi).1) (fun i hi => (hd i hi).2)⟩

theorem indexAccess_reads (hg : g.Sound) (hs : s.Closed) {ts₀ : List Token} {target : Node}
    (ht : Derives .operand ts₀ target) (h : Gives (indexAccess g target) scope s n s') :
    ∃ ts, s.Reads ts s' ∧ Derives .operand (ts₀ ++ ts) n := by
  simp only [indexAccess, gives_bind, gives_pure] at h
  obtain ⟨b, s₁, hb, rfl, rfl⟩ := h
  obtain ⟨i, hr, rfl, hbetween, hsep, htight, hd⟩ := indexList_reads hg hs hb
  exact ⟨_, hr, .indexAccess i ht hbetween hsep htight hd⟩

/-- Arguments that are there if a condition holds. -/
theorem optionalArguments_reads (hg : g.Sound) (hs : s.Closed) {c : Prop} [Decidable c]
    {r : Option Bracketed}
    (h : Gives (if c then some <$> argumentList g else pure none) scope s r s') :
    ∃ o : Option Group, s.Reads (groupTokens o) s' ∧
      r = o.map (fun i => ⟨i.leaves, i.nodes, i.closer⟩) ∧
      (∀ i ∈ o, i.Between .leftParen .rightParen) ∧ (∀ i ∈ o, i.inner.SeparatedBy .comma) ∧
      ∀ i ∈ o, ∀ x ∈ i.inner.items, Derives (.expression false) x.1 x.2 := by
  simp only [gives_ite, gives_map, gives_pure] at h
  rcases h with ⟨_, b, hb, rfl⟩ | ⟨_, rfl, rfl⟩
  · obtain ⟨i, hr, rfl, hbetween, hsep, hd⟩ := argumentList_reads hg hs hb
    exact ⟨some i, hr, rfl, by simpa using hbetween, by simpa using hsep, by simpa using hd⟩
  · exact ⟨none, .refl s, rfl, by simp, by simp, by simp⟩

theorem methodCall_reads (hg : g.Sound) (hs : s.Closed) {ts₀ : List Token} {receiver : Node}
    (hk : s.current.kind = .symbol .dot) (hd₀ : Derives .operand ts₀ receiver)
    (h : Gives (methodCall g receiver) scope s n s') :
    ∃ ts, s.Reads ts s' ∧ Derives .operand (ts₀ ++ ts) n := by
  simp only [methodCall, ite_bind, gives_bind, gives_advanceLeaf, gives_current] at h
  obtain ⟨_, _, ⟨rfl, rfl⟩, _, _, ⟨rfl, rfl⟩, h⟩ := h
  rw [gives_ite] at h
  simp only [gives_unexpected, and_false, false_or, gives_bind, gives_advance, gives_atTouching,
    gives_pure] at h
  obtain ⟨hname, _, _, ⟨rfl, rfl⟩, _, _, ⟨rfl, rfl⟩, arguments, s₁, ha, block, s₂, hb, rfl,
    rfl⟩ := h
  have hname : s.tail.current.kind = .name ∨ s.tail.current.kind.isKeyword = true :=
    Decidable.byContradiction fun hne => hname (by simpa [not_or] using hne)
  have hr₁ := hs.tail.reads_tail (ne_end_of_isWord hname)
  obtain ⟨o, hr₂, rfl, hbetween, hsep, hd⟩ := optionalArguments_reads hg hs.tail.tail ha
  obtain ⟨p, hr₃, rfl, hp⟩ := optionalLambda_reads hg (hr₂.closed hs.tail.tail) hb
  refine ⟨_, (hs.reads_tail (by simp [hk])).trans (hr₁.trans (hr₂.trans hr₃)), ?_⟩
  have hn : s.tail.current.named .methodName = s.tail.current.identifier := rfl
  simpa [hn, groupTokens, groupLeaves, Function.comp_def] using
    Derives.methodCall s.current s.tail.current o p hd₀ hk hname hbetween hsep hd hp

/-- One choice of a selector: it is a default only if none was seen. -/
theorem selectorItem_reads (hg : g.Sound) (seen : Bool) (s : TokenStream) (r : Node × Bool)
    (s' : TokenStream) (hs : s.Closed) (h : Gives (selectorItem g seen) scope s r s') :
    ∃ ts, s.Reads ts s' ∧ Derives .selectorItem ts r.1 ∧
      seen.toNat + r.1.defaultCount = r.2.toNat := by
  simp only [selectorItem, gives_bind, gives_current, gives_ite, gives_reject, and_false, false_or,
    gives_expectSymbol, gives_pure] at h
  obtain ⟨_, _, ⟨rfl, rfl⟩, key, s₁, hkey, hseen, arrow, s₂, ⟨ha, rfl, rfl⟩, value, s₃, hv, rfl,
    rfl⟩ := h
  obtain ⟨ks, hr₁, hk, hkr⟩ := hg.value _ _ _ hs hkey
  have hs₁ := hr₁.closed hs
  obtain ⟨vs, hr₂, hv, hvr⟩ := hg.value _ _ _ hs₁.tail hv
  refine ⟨_, hr₁.trans ((hs₁.reads_tail (by simp [ha])).trans hr₂),
    .selectorItem _ hk hkr ha hv hvr, ?_⟩
  by_cases hd : key.kind = .default <;> cases seen <;>
    simp_all [Node.defaultCount, Node.shape]

theorem selector_choices (hg : g.Sound) (hs : s.Closed) {subject : Node}
    (hk : s.current.kind = .symbol .question) (h : Gives (selector g subject) scope s n s') :
    ∃ choices : Group, s.Reads (s.current :: choices.tokens) s' ∧
      choices.Between .leftBrace .rightBrace ∧ choices.inner.SeparatedBy .comma ∧
      (∀ i ∈ choices.inner.items, Derives .selectorItem i.1 i.2) ∧
      (choices.nodes.map Node.defaultCount).sum ≤ 1 ∧
      n = .mk (subject.span.join choices.closer.span) (s.current.leaf :: choices.leaves)
        (.selector subject choices.nodes) := by
  simp only [selector, gives_bind, gives_advanceLeaf, gives_expectSymbol, gives_withBraceBlocks,
    gives_pure] at h
  obtain ⟨_, _, ⟨rfl, rfl⟩, _, _, ⟨ho, rfl, rfl⟩, r, s₁, hl, _, _, ⟨hc, rfl, rfl⟩, rfl, rfl⟩ := h
  obtain ⟨items, commas, seen, hr, rfl, ht, hcommas, h₁, h₂⟩ :=
    commaListWith_reads (P := fun seen ts n seen' => Derives .selectorItem ts n ∧
      seen.toNat + n.defaultCount = seen'.toNat) (selectorItem_reads hg) hs.tail.tail hl
  have hcount := ht.sum_eq Node.defaultCount Bool.toNat fun _ _ _ _ h => h.2
  obtain ⟨hr, hb⟩ := hs.tail.reads_group (l := ⟨items, commas⟩) ho hr hc
  refine ⟨⟨_, ⟨items, commas⟩, _⟩, (hs.reads_tail (by simp [hk])).trans hr, hb,
    ⟨hcommas, h₁, h₂⟩, ht.forall_mem fun _ _ _ _ h => h.1, ?_, rfl⟩
  have := seen.toNat_le
  simp only [Group.nodes, Series.nodes, List.map_map, Function.comp_def]
  simp only [Bool.toNat_false] at hcount
  omega

theorem selector_reads (hg : g.Sound) (hs : s.Closed) {ts₀ : List Token} {subject : Node}
    (hk : s.current.kind = .symbol .question) (hd₀ : Derives .operand ts₀ subject)
    (h : Gives (selector g subject) scope s n s') :
    ∃ ts, s.Reads ts s' ∧ Derives .operand (ts₀ ++ ts) n := by
  obtain ⟨choices, hr, hb, hsep, hd, hcount, rfl⟩ := selector_choices hg hs hk h
  exact ⟨_, hr, .selector _ choices hd₀ hk hb hsep hd hcount⟩

theorem postfixTail_reads (hg : g.Sound) (hs : s.Closed) {ts₀ : List Token} {left : Node}
    (hd₀ : Derives .operand ts₀ left) (h : Gives (postfixTail g left) scope s n s') :
    ∃ ts, s.Reads ts s' ∧ Derives .operand (ts₀ ++ ts) n := by
  have grow {s₁ s₂ : TokenStream} {ts us : List Token} {m : Node} (hr : s.Reads ts s₁)
      (hus : s₁.Reads us s₂) (hm : Derives .operand (ts₀ ++ ts ++ us) m) :
      ∃ ts, s.Reads ts s₂ ∧ Derives .operand (ts₀ ++ ts) m :=
    ⟨_, hr.trans hus, by rwa [← List.append_assoc]⟩
  refine repeatFrom_invariant
    (fun m s₁ => ∃ ts, s.Reads ts s₁ ∧ Derives .operand (ts₀ ++ ts) m)
    (fun m s₁ => ∃ ts, s.Reads ts s₁ ∧ Derives .operand (ts₀ ++ ts) m)
    ?_ ?_ ⟨[], .refl s, by simpa using hd₀⟩ h
  · rintro m s₁ m' s₂ ⟨ts, hr, hd⟩ hstep
    have hs₁ := hr.closed hs
    simp only [gives_bind, gives_atTouching, gives_atSymbol, gives_ite, gives_map, gives_pure,
      reduceCtorEq, and_false, false_and, or_false, Sum.inl.injEq] at hstep
    obtain ⟨_, _, ⟨rfl, rfl⟩, ⟨_, k, hk, rfl⟩ | ⟨_, _, _, ⟨rfl, rfl⟩, hstep⟩⟩ := hstep
    · obtain ⟨us, hus, hk⟩ := indexAccess_reads hg hs₁ hd hk
      exact grow hr hus hk
    rcases hstep with ⟨hdot, k, hk, rfl⟩ | ⟨_, _, _, ⟨rfl, rfl⟩, hq, k, hk, rfl⟩
    · obtain ⟨us, hus, hk⟩ := methodCall_reads hg hs₁ (by simpa using hdot) hd hk
      exact grow hr hus hk
    · obtain ⟨us, hus, hk⟩ := selector_reads hg hs₁ (by simpa using hq) hd hk
      exact grow hr hus hk
  · rintro m s₁ m' s₂ ⟨ts, hr, hd⟩ hstep
    simp only [gives_bind, gives_atTouching, gives_atSymbol, gives_ite, gives_map, gives_pure,
      reduceCtorEq, and_false, exists_false, false_or, Sum.inr.injEq] at hstep
    obtain ⟨_, _, ⟨rfl, rfl⟩, _, _, _, ⟨rfl, rfl⟩, _, _, _, ⟨rfl, rfl⟩, _, rfl, rfl⟩ := hstep
    exact ⟨ts, hr, hd⟩

/-! ## Hashes -/

theorem hashKey_yields (hg : g.Sound) (hs : s.Closed) (h : Gives (hashKey g) scope s n s') :
    s.Yields .hashKey n s' := by
  simp only [hashKey, gives_bind, gives_current, gives_second, gives_ite, gives_advance,
    gives_pure] at h
  obtain ⟨_, _, ⟨rfl, rfl⟩, _, _, ⟨rfl, rfl⟩, h⟩ := h
  rcases h with ⟨hk, _, _, ⟨rfl, rfl⟩, rfl, rfl⟩ | ⟨_, ⟨hk, word, s₁, hw, h⟩ | ⟨_, h⟩⟩
  · simp only [Bool.and_eq_true, decide_eq_true_eq] at hk
    refine ⟨_, hs.reads_tail ?_, .keywordKey _ hk.1⟩
    intro he
    simp [he, TokenKind.isPlainKeyword] at hk
  · obtain ⟨ts, hr, hd⟩ := bareword_yields hg hs hk hw
    obtain ⟨us, hr₁, hd⟩ := postfixTail_reads hg (hr.closed hs) hd h
    have hd : Derives .unary _ n := .bareOperand hd
    exact ⟨_, hr.trans hr₁, .valueKey (.single false hd) (hd.rank_eq_zero ▸ Nat.zero_le _)⟩
  · obtain ⟨ts, hr, hd, hn⟩ := hg.value _ _ _ hs h
    exact ⟨ts, hr, .valueKey hd hn⟩

theorem hashEntry_yields (hg : g.Sound) : ∀ s n s', s.Closed →
    Gives (hashEntry g) scope s n s' → s.Yields .hashEntry n s' := by
  intro s n s' hs h
  simp only [hashEntry, gives_bind, gives_expectSymbol, gives_pure] at h
  obtain ⟨key, s₁, hk, arrow, s₂, ⟨ha, rfl, rfl⟩, value, s₃, hv, rfl, rfl⟩ := h
  obtain ⟨ks, hr₁, hk⟩ := hashKey_yields hg hs hk
  have hs₁ := hr₁.closed hs
  obtain ⟨vs, hr₂, hv, hrank⟩ := hg.value _ _ _ hs₁.tail hv
  exact ⟨_, hr₁.trans ((hs₁.reads_tail (by simp [ha])).trans hr₂), .hashEntry _ hk ha hv hrank⟩

theorem hash_yields (hg : g.Sound) (hs : s.Closed) (hk : s.current.kind = .symbol .leftBrace)
    (h : Gives (hash g) scope s n s') : s.Yields .operand n s' := by
  simp only [hash, gives_bind, gives_advance, gives_expectSymbol, gives_withBraceBlocks,
    gives_pure] at h
  obtain ⟨_, _, ⟨rfl, rfl⟩, r, s₁, hl, _, _, ⟨hc, rfl, rfl⟩, rfl, rfl⟩ := h
  obtain ⟨l, hr, rfl, hsep, hd⟩ := commaList_reads (hashEntry_yields hg) hs.tail hl
  obtain ⟨hr, hb⟩ := hs.reads_group hk hr hc
  exact ⟨_, hr, .hash ⟨_, l, _⟩ hb hsep hd⟩

/-! ## Operands -/

theorem parenthesized_yields (hg : g.Sound) (hs : s.Closed)
    (hk : s.current.kind = .symbol .leftParen) (h : Gives (parenthesized g) scope s n s') :
    s.Yields .operand n s' := by
  simp only [parenthesized, gives_bind, gives_advance, gives_expectSymbol, gives_withBraceBlocks,
    gives_pure] at h
  obtain ⟨_, _, ⟨rfl, rfl⟩, inner, s₁, hi, _, _, ⟨hc, rfl, rfl⟩, rfl, rfl⟩ := h
  obtain ⟨ts, hr, hd⟩ := hg.expression _ _ _ hs.tail hi
  have hr := (hs.reads_tail (by simp [hk])).trans
    (hr.trans ((hr.closed hs.tail).reads_tail (by simp [hc])))
  exact ⟨_, hr, .parenthesized _ _ hk hc hd⟩

theorem primary_yields (hg : g.Sound) (hs : s.Closed) {place : BarewordPlace}
    (h : Gives (primary g place) scope s n s') : s.Yields .operand n s' := by
  simp only [primary, gives_bind, gives_current] at h
  obtain ⟨_, _, ⟨rfl, rfl⟩, h⟩ := h
  split at h
  case h_1 r hr =>
    simp only [gives_bind, gives_advance, gives_lift] at h
    obtain ⟨_, _, ⟨rfl, rfl⟩, rfl, rfl⟩ := h
    have hk : s.current.kind ≠ .endOfInput := by
      intro he
      simp [Token.literal?, he] at hr
    have hr₁ := hs.reads_tail hk
    exact ⟨_, hr₁, literal_derives hg (hr₁.closed_of_mem hs (List.mem_singleton_self _)) hr rfl⟩
  case h_2 =>
    split at h
    case h_1 hk => exact bareword_yields hg hs hk h
    case h_2 hk => exact referenceOperand_yields hg hs hk h
    case h_3 hk => exact array_yields hg hs hk h
    case h_4 hk => exact hash_yields hg hs hk h
    case h_5 hk => exact parenthesized_yields hg hs hk h
    case h_6 => exact absurd h gives_unexpected

theorem operand_yields (hg : g.Sound) (hs : s.Closed) {place : BarewordPlace}
    (h : Gives (operand g place) scope s n s') : s.Yields .operand n s' := by
  simp only [operand, gives_bind] at h
  obtain ⟨left, s₁, hl, h⟩ := h
  obtain ⟨ts, hr, hd⟩ := primary_yields hg hs hl
  obtain ⟨us, hr₁, hd⟩ := postfixTail_reads hg (hr.closed hs) hd h
  exact ⟨_, hr.trans hr₁, hd⟩

/-! ## Operators -/

theorem unary_yields (hg : g.Sound) (hs : s.Closed) {place : BarewordPlace}
    (h : Gives (unary g place) scope s n s') : s.Yields .unary n s' := by
  simp only [unary, gives_bind, gives_current] at h
  obtain ⟨_, _, ⟨rfl, rfl⟩, h⟩ := h
  split at h
  case h_1 =>
    obtain ⟨ts, hr, hd⟩ := operand_yields hg hs h
    exact ⟨ts, hr, .bareOperand hd⟩
  case h_2 o ho =>
    simp only [gives_bind, gives_advance, gives_pure] at h
    obtain ⟨_, _, ⟨rfl, rfl⟩, inner, s₁, hi, rfl, rfl⟩ := h
    obtain ⟨ts, hr, hd⟩ := hg.unary hs.tail hi
    refine ⟨_, (hs.reads_tail ?_).trans hr, .prefixed _ o ho hd⟩
    intro he
    simp [he, Operator.unary?] at ho

/-- Climbing keeps this: the expression so far derives, has at most the rank allowed, and may
stand on the left of the operator that comes next. -/
theorem climb_reads (hg : g.Sound) (hs : s.Closed) {maxRank : Nat} {command : Bool}
    {ts₀ : List Token} {left : Node} (hd₀ : Derives (.expression command) ts₀ left)
    (hrank : left.rank ≤ maxRank) (hnext : s.AdmitsLeft left.rank command)
    (h : Gives (climb g maxRank command left) scope s n s') :
    ∃ ts, s.Reads ts s' ∧ Derives (.expression command) (ts₀ ++ ts) n ∧ n.rank ≤ maxRank ∧
      s'.Stops maxRank command := by
  refine repeatFrom_invariant
    (fun m s₁ => ∃ ts, s.Reads ts s₁ ∧ Derives (.expression command) (ts₀ ++ ts) m ∧
      m.rank ≤ maxRank ∧ s₁.AdmitsLeft m.rank command)
    (fun m s₁ => ∃ ts, s.Reads ts s₁ ∧ Derives (.expression command) (ts₀ ++ ts) m ∧
      m.rank ≤ maxRank ∧ s₁.Stops maxRank command)
    ?_ ?_ ⟨[], .refl s, by simpa using hd₀, hrank, hnext⟩ h
  · rintro m s₁ m' s₂ ⟨ts, hr, hd, hm, hleft⟩ hstep
    simp only [gives_bind, gives_current] at hstep
    obtain ⟨_, _, ⟨rfl, rfl⟩, hstep⟩ := hstep
    split at hstep
    · simp at hstep
    rename_i o ho
    simp only [gives_ite, gives_pure, gives_bind, gives_advance, reduceCtorEq, false_and,
      and_false, false_or, gives_reject, Bool.or_eq_true, Bool.and_eq_true, decide_eq_true_eq,
      not_or, not_and, Sum.inl.injEq] at hstep
    obtain ⟨⟨hle, hcommand⟩, _, _, ⟨rfl, rfl⟩, hstep⟩ := hstep
    have hcommand : command → Operator.command? s₁.current.kind = none := by simpa using hcommand
    have hs₁ := hr.closed hs
    have hr₁ := hr.trans (hs₁.reads_tail (by intro he; simp [he, Operator.binary?] at ho))
    have hleft := hleft o ho hcommand
    rcases hstep with ⟨heq, htarget, r, s₃, hright, rfl, rfl⟩ | ⟨hne, r, s₃, hright, rfl, rfl⟩
    all_goals
      obtain ⟨⟨us, hus, hd'⟩, hrank', hstops⟩ := hg.binary hs₁.tail hright
      refine ⟨_, hr₁.trans hus, ?_⟩
      rw [List.append_assoc, ← List.append_assoc ts₀]
    · obtain rfl : o = ⟨"=", 13, .right⟩ := by simpa [heq, Operator.binary?, eq_comm] using ho
      exact ⟨.assignment command _ heq (by simpa using htarget) hd hd',
        by rw [Node.rank_assignment]; exact Nat.le_of_not_lt hle, hstops.admitsLeft ho⟩
    · rw [Node.rank_binary ho]
      exact ⟨.binary command _ o ho hne hcommand hd hd' hleft
        (Operator.admitsRight_of_le (Operator.binary?_pos ho) hrank'), Nat.le_of_not_lt hle,
        hstops.admitsLeft ho⟩
  · rintro m s₁ m' s₂ ⟨ts, hr, hd, hm, -⟩ hstep
    simp only [gives_bind, gives_current] at hstep
    obtain ⟨_, _, ⟨rfl, rfl⟩, hstep⟩ := hstep
    split at hstep
    case h_1 ho =>
      simp only [gives_pure, Sum.inr.injEq] at hstep
      obtain ⟨rfl, rfl⟩ := hstep
      exact ⟨ts, hr, hd, hm, fun o ho' => by simp [ho] at ho'⟩
    case h_2 o ho =>
      simp only [gives_ite, gives_pure, gives_bind, gives_advance, reduceCtorEq, false_and,
        and_false, or_false, exists_false, Sum.inr.injEq, Bool.or_eq_true, Bool.and_eq_true,
        decide_eq_true_eq, gives_reject] at hstep
      obtain ⟨hstop, rfl, rfl⟩ := hstep
      refine ⟨ts, hr, hd, hm, fun o' ho' hc => ?_⟩
      obtain rfl : o = o' := Option.some.inj (ho.symm.trans ho')
      rcases hstop with hlt | ⟨hc', hsome⟩
      · exact hlt
      · simp [hc hc'] at hsome

theorem binaryIn_yields (hg : g.Sound) (hs : s.Closed) {place : BarewordPlace} {maxRank : Nat}
    {command : Bool} (h : Gives (binaryIn g place maxRank command) scope s n s') :
    s.Yields (.expression command) n s' ∧ n.rank ≤ maxRank ∧ s'.Stops maxRank command := by
  simp only [binaryIn, gives_bind] at h
  obtain ⟨left, s₁, hl, h⟩ := h
  obtain ⟨ts, hr, hd⟩ := unary_yields hg hs hl
  have hzero := hd.rank_eq_zero
  obtain ⟨us, hr₁, hd, hn, hstops⟩ := climb_reads hg (hr.closed hs) (.single command hd)
    (hzero ▸ Nat.zero_le _) (hzero ▸ admitsLeft_zero _ _) h
  exact ⟨⟨_, hr.trans hr₁, hd⟩, hn, hstops⟩

theorem climbCommand_reads (hg : g.Sound) (hs : s.Closed) {maxRank : Nat} {ts₀ : List Token}
    {left : Node} (hd₀ : Derives .statementExpression ts₀ left) (hzero : left.commandRank = 0)
    (h : Gives (climbCommand g maxRank left) scope s n s') :
    ∃ ts, s.Reads ts s' ∧ Derives .statementExpression (ts₀ ++ ts) n ∧
      n.commandRank ≤ maxRank ∧ s'.StopsCommand maxRank := by
  refine repeatFrom_invariant
    (fun m s₁ => ∃ ts, s.Reads ts s₁ ∧ Derives .statementExpression (ts₀ ++ ts) m ∧
      m.commandRank ≤ maxRank ∧
      ∀ o, Operator.command? s₁.current.kind = some o → m.commandRank ≤ o.rank)
    (fun m s₁ => ∃ ts, s.Reads ts s₁ ∧ Derives .statementExpression (ts₀ ++ ts) m ∧
      m.commandRank ≤ maxRank ∧ s₁.StopsCommand maxRank)
    ?_ ?_ ⟨[], .refl s, by simpa using hd₀, by omega, by omega⟩ h
  · rintro m s₁ m' s₂ ⟨ts, hr, hd, hm, hleft⟩ hstep
    simp only [gives_bind, gives_current] at hstep
    obtain ⟨_, _, ⟨rfl, rfl⟩, hstep⟩ := hstep
    split at hstep
    · simp at hstep
    rename_i o ho
    simp only [gives_ite, gives_pure, gives_bind, gives_advance, reduceCtorEq, false_and,
      and_false, false_or, Sum.inl.injEq] at hstep
    obtain ⟨hle, _, _, ⟨rfl, rfl⟩, r, s₃, hright, rfl, rfl⟩ := hstep
    have hs₁ := hr.closed hs
    have hr₁ := hr.trans (hs₁.reads_tail (by intro he; simp [he, Operator.command?] at ho))
    obtain ⟨⟨us, hus, hd'⟩, hrank', hstops⟩ := hg.command hs₁.tail hright
    have hright := Operator.command?_rightRank ho
    refine ⟨_, hr₁.trans hus, ?_⟩
    rw [List.append_assoc, ← List.append_assoc ts₀, commandRank_commandBinary ho]
    refine ⟨.commandBinary _ o ho hd hd' (hleft o ho) (by omega), by omega, fun o' ho' => ?_⟩
    have := hstops o' ho'
    omega
  · rintro m s₁ m' s₂ ⟨ts, hr, hd, hm, -⟩ hstep
    simp only [gives_bind, gives_current] at hstep
    obtain ⟨_, _, ⟨rfl, rfl⟩, hstep⟩ := hstep
    split at hstep
    case h_1 ho =>
      simp only [gives_pure, Sum.inr.injEq] at hstep
      obtain ⟨rfl, rfl⟩ := hstep
      exact ⟨ts, hr, hd, hm, fun o ho' => by simp [ho] at ho'⟩
    case h_2 o ho =>
      simp only [gives_ite, gives_pure, gives_bind, gives_advance, reduceCtorEq, false_and,
        and_false, or_false, exists_false, Sum.inr.injEq] at hstep
      obtain ⟨hlt, rfl, rfl⟩ := hstep
      refine ⟨ts, hr, hd, hm, fun o' ho' => ?_⟩
      obtain rfl : o = o' := Option.some.inj (ho.symm.trans ho')
      exact hlt

theorem command_yields (hg : g.Sound) (hs : s.Closed) {maxRank : Nat}
    (h : Gives (command g maxRank) scope s n s') :
    s.Yields .statementExpression n s' ∧ n.commandRank ≤ maxRank ∧ s'.StopsCommand maxRank := by
  simp only [command, gives_bind] at h
  obtain ⟨left, s₁, hl, h⟩ := h
  obtain ⟨⟨ts, hr, hd⟩, -, -⟩ := binaryIn_yields hg hs hl
  obtain ⟨us, hr₁, hd, hn, hstops⟩ :=
    climbCommand_reads hg (hr.closed hs) (.plainCommand hd) hd.commandRank_eq_zero h
  exact ⟨⟨_, hr.trans hr₁, hd⟩, hn, hstops⟩

/-! ## Interpolations -/

theorem ofTokens_closed {inner : List Token} {p : Position} (h : ∀ t ∈ inner, t.Closed) :
    (TokenStream.ofTokens (inner ++ [Token.endAt p])).Closed := by
  refine ⟨?_, ?_⟩
  · simp [TokenStream.ofTokens, Token.endAt, Token.kind]
  · simpa [TokenStream.ofTokens] using h

/-- At the end of input everything was read. -/
theorem Reads.eq_inner {inner ts : List Token} {p : Position} (hc : ∀ t ∈ inner, t.Closed)
    (h : (TokenStream.ofTokens (inner ++ [Token.endAt p])).Reads ts s')
    (hk : s'.current.kind = .endOfInput) : ts = inner := by
  have := h.rest
  rw [(h.closed (ofTokens_closed hc)).rest_eq_nil hk] at this
  simpa [TokenStream.ofTokens] using this.symm

theorem interpolatedExpression_reads (hg : g.Sound) (hs : s.Closed)
    (h : Gives (interpolatedExpression g) scope s n s') :
    s.Yields (.expression false) n s' ∧ s'.current.kind = .endOfInput := by
  simp only [interpolatedExpression, ← bind_assoc, ite_bind] at h
  simp only [gives_bind, gives_current, gives_second, gives_ite, gives_reject, gives_unexpected,
    gives_advance, gives_pure, and_false, false_or, or_false] at h
  obtain ⟨_, _, ⟨rfl, rfl⟩, _, _, ⟨rfl, rfl⟩, hend, e, s₁, he, _, _, ⟨rfl, rfl⟩, hk, rfl, rfl⟩ := h
  refine ⟨?_, hk⟩
  rcases he with ⟨hname, m, s₂, ⟨_, _, ⟨rfl, rfl⟩, hm⟩, hclimb⟩ | ⟨_, hb⟩
  · simp only [Bool.and_eq_true, Bool.or_eq_true, decide_eq_true_eq] at hname
    have hr := hs.reads_tail hend
    obtain ⟨us, hr₁, hd⟩ := postfixTail_reads hg hs.tail (.bareVariable _ hname.1) hm
    have hd : Derives .unary _ m := .bareOperand hd
    have hzero := hd.rank_eq_zero
    have hr₁ := hr.trans hr₁
    obtain ⟨vs, hr₂, hd, -, -⟩ := climb_reads hg (hr₁.closed hs) (.single false hd)
      (hzero ▸ Nat.zero_le _) (hzero ▸ admitsLeft_zero _ _) hclimb
    exact ⟨_, hr₁.trans hr₂, hd⟩
  · exact (binaryIn_yields hg hs hb).1

theorem interpolated_derives (hg : g.Sound) {p : Position} {inner : List Token}
    (hc : ∀ t ∈ inner, t.Closed) (h : interpolated g (inner ++ [Token.endAt p]) = .ok n) :
    Derives (.expression false) inner n := by
  obtain ⟨s', hrun⟩ := runOn_eq_ok.mp h
  obtain ⟨⟨ts, hr, hd⟩, hk⟩ := interpolatedExpression_reads hg (ofTokens_closed hc) hrun
  exact Reads.eq_inner hc hr hk ▸ hd

end Parse

end ManifestTree
