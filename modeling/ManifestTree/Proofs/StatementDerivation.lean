import ManifestTree.Parse.Manifest
import ManifestTree.Proofs.ExpressionDerivation

/-!
# Statements derive

What the parser of each form of statement reads derives the node it answers.  With the lemmas for
expressions this makes every grammar sound, whatever its bound on nesting.
-/

namespace ManifestTree

open Parse ManifestTree.Parser TokenStream

variable {g : Grammar} {scope : Scope} {s s' : TokenStream} {n : Node}

namespace Parse

/-! ## Conditionals -/

theorem condition_yields (hg : g.Sound) (hs : s.Closed) (h : Gives (condition g) scope s n s') :
    s.Yields .statementExpression n s' := (command_yields hg hs h).1

theorem optionalElse_reads (hg : g.Sound) (hs : s.Closed) {r : Option Node}
    (h : Gives (optionalElse g) scope s r s') :
    ∃ o : Option Segment, s.Reads (tokensOf o) s' ∧ r = o.map Prod.snd ∧
      ∀ x ∈ o, Derives .otherwise x.1 x.2 := by
  simp only [optionalElse, gives_bind, gives_nextIs, gives_ite, gives_advance, gives_pure] at h
  obtain ⟨_, _, ⟨rfl, rfl⟩, ⟨hk, _, _, ⟨rfl, rfl⟩, block, s₁, hb, rfl, rfl⟩ | ⟨_, rfl, rfl⟩⟩ := h
  · have hk : s.current.kind = .keyword .else := by simpa using hk
    obtain ⟨bs, hr, hd⟩ := body_yields hg hs.tail hb
    exact ⟨some (_, _), (hs.reads_tail (by simp [hk])).trans hr, rfl,
      by simpa using Derives.otherwise _ hk hd⟩
  · exact ⟨none, .refl s, rfl, by simp⟩

theorem elsif_yields (hg : g.Sound) (hs : s.Closed) (hk : s.current.kind = .keyword .elsif)
    (h : Gives (elsif g) scope s n s') : s.Yields .elsif n s' := by
  simp only [elsif, gives_bind, gives_advance, gives_pure] at h
  obtain ⟨_, _, ⟨rfl, rfl⟩, test, s₁, ht, block, s₂, hb, rfl, rfl⟩ := h
  obtain ⟨cs, hr₁, ht⟩ := condition_yields hg hs.tail ht
  have hr := (hs.reads_tail (by simp [hk])).trans hr₁
  obtain ⟨bs, hr₂, hb⟩ := body_yields hg (hr.closed hs) hb
  exact ⟨_, hr.trans hr₂, .elsif _ hk ht hb⟩

theorem ifStatement_yields (hg : g.Sound) (hs : s.Closed) (hk : s.current.kind = .keyword .if)
    (h : Gives (ifStatement g) scope s n s') : s.Yields .statement n s' := by
  simp only [ifStatement, gives_bind, gives_advance, gives_pure] at h
  obtain ⟨_, _, ⟨rfl, rfl⟩, test, s₁, ht, block, s₂, hb, r, s₃, hl, other, s₄, ho, rfl, rfl⟩ := h
  obtain ⟨cs, hr₁, ht⟩ := condition_yields hg hs.tail ht
  have hr := (hs.reads_tail (by simp [hk])).trans hr₁
  obtain ⟨bs, hr₂, hb⟩ := body_yields hg (hr.closed hs) hb
  have hr := hr.trans hr₂
  obtain ⟨items, hr₃, hitems, htrace, -⟩ := untilClosed_reads (P := fun _ ts n _ =>
    Derives .elsif ts n) (fun _ _ _ _ hs hk h => by
      simp only [gives_bind, gives_pure] at h
      obtain ⟨n, _, hn, rfl, rfl⟩ := h
      exact elsif_yields hg hs (by simpa using hk) hn) (hr.closed hs) hl
  have hr := hr.trans hr₃
  obtain ⟨o, hr₄, rfl, ho'⟩ := optionalElse_reads hg (hr.closed hs) ho
  refine ⟨_, hr.trans hr₄, ?_⟩
  have hd := Derives.ifStatement _ items o hk ht hb (htrace.forall_mem fun _ _ _ _ h => h) ho'
  simpa [hitems, Function.comp_def] using hd

theorem unlessStatement_yields (hg : g.Sound) (hs : s.Closed)
    (hk : s.current.kind = .keyword .unless) (h : Gives (unlessStatement g) scope s n s') :
    s.Yields .statement n s' := by
  simp only [unlessStatement, gives_bind, gives_advance, gives_pure] at h
  obtain ⟨_, _, ⟨rfl, rfl⟩, test, s₁, ht, block, s₂, hb, other, s₄, ho, rfl, rfl⟩ := h
  obtain ⟨cs, hr₁, ht⟩ := condition_yields hg hs.tail ht
  have hr := (hs.reads_tail (by simp [hk])).trans hr₁
  obtain ⟨bs, hr₂, hb⟩ := body_yields hg (hr.closed hs) hb
  have hr := hr.trans hr₂
  obtain ⟨o, hr₄, rfl, ho'⟩ := optionalElse_reads hg (hr.closed hs) ho
  refine ⟨_, hr.trans hr₄, ?_⟩
  simpa [Function.comp_def] using Derives.unlessStatement _ o hk ht hb ho'

/-! ## Case statements -/

/-- What the options of a case arm so far have read. -/
structure OptionsRead (s : TokenStream) (seen : Bool) (o : CaseOptions) (l : Series)
    (s' : TokenStream) : Prop where
  reads : s.Reads l.tokens s'
  options : o.options = l.nodes.reverse
  commas : o.commas = l.leaves.reverse
  kinds : ∀ t ∈ l.seps, t.kind = .symbol .comma
  tight : l.Tight
  derives : ∀ i ∈ l.items, Derives (.expression false) i.1 i.2
  ranks : ∀ i ∈ l.items, i.2.rank ≤ Operator.valueRank
  count : seen.toNat + l.nodes.countP (fun n => n.kind = .default) =
    (seen || o.default.isSome).toNat
  keyword : ∀ t ∈ o.default, t.kind = .keyword .default ∧ ([t], t.defaultNode) ∈ l.items

theorem OptionsRead.tokens_ne_nil {seen : Bool} {o : CaseOptions} {l : Series}
    (h : OptionsRead s seen o l s') : l.tokens ≠ [] := by
  obtain ⟨items, seps⟩ := l
  match items, h.tight, h.derives with
  | i :: items, _, hd =>
    have := (hd i List.mem_cons_self).ne_nil
    cases seps <;> simp [Series.tokens, weave, this]

/-- What one more option adds. -/
structure OptionRead (s : TokenStream) (seen : Bool) (o o' : CaseOptions) (i : Segment)
    (s' : TokenStream) : Prop where
  reads : s.Reads i.1 s'
  derives : Derives (.expression false) i.1 i.2
  rank : i.2.rank ≤ Operator.valueRank
  options : o'.options = i.2 :: o.options
  commas : o'.commas = o.commas
  count : (seen || o.default.isSome).toNat + (if i.2.kind = .default then 1 else 0) =
    (seen || o'.default.isSome).toNat
  keyword : o'.default = o.default ∨
    ∃ t, o'.default = some t ∧ t.kind = .keyword .default ∧ i = ([t], t.defaultNode)

theorem caseOption_reads (hg : g.Sound) (hs : s.Closed) {seen : Bool} {o o' : CaseOptions}
    (h : Gives (caseOption g seen o) scope s o' s') : ∃ i, OptionRead s seen o o' i s' := by
  simp only [caseOption, gives_bind, gives_current, gives_ite, gives_reject, and_false, false_or,
    gives_pure] at h
  obtain ⟨_, _, ⟨rfl, rfl⟩, n, s₁, hn, h⟩ := h
  obtain ⟨ts, hr, hd, hrank⟩ := hg.value _ _ _ hs hn
  rcases h with ⟨hk, hseen, rfl, rfl⟩ | ⟨hk, rfl, rfl⟩
  · obtain ⟨t, rfl, ht, rfl⟩ := hd.eq_default hk
    have hcur : t = s.current := by simpa using hr.head? (by simp)
    refine ⟨_, hr, hd, hrank, rfl, rfl, ?_, .inr ⟨t, by rw [hcur], ht, rfl⟩⟩
    simp_all
  · exact ⟨(ts, n), hr, hd, hrank, rfl, rfl, by simp [hk], .inl rfl⟩

/-- A comma and one more option. -/
theorem OptionsRead.snoc {s₁ : TokenStream} {seen : Bool} {o o' : CaseOptions} {l : Series}
    {i : Segment} {comma : Token} (h : OptionsRead s seen o l s₁) (hc : comma.kind = .symbol .comma)
    (hr : s₁.Reads (comma :: i.1) s')
    (hi : ∃ s₂, OptionRead s₂ seen { o with commas := comma.leaf :: o.commas } o' i s') :
    OptionsRead s seen o' ⟨l.items ++ [i], l.seps ++ [comma]⟩ s' := by
  obtain ⟨s₂, hi⟩ := hi
  have mem {P : Segment → Prop} (hl : ∀ j ∈ l.items, P j) (hP : P i) :
      ∀ j ∈ l.items ++ [i], P j := by
    intro j hj
    rcases List.mem_append.mp hj with hj | hj
    · exact hl j hj
    · rwa [List.mem_singleton.mp hj]
  constructor
  · have := h.reads.trans hr
    rwa [Series.tokens, List.map_append, List.map_singleton,
      weave_snoc _ _ (by simpa [Series.Tight] using h.tight)]
  · simp [hi.options, h.options, Series.nodes]
  · simp [hi.commas, h.commas, Series.leaves]
  · simpa [or_imp, forall_and] using ⟨h.kinds, hc⟩
  · simpa [Series.Tight] using h.tight
  · exact mem h.derives hi.derives
  · exact mem h.ranks hi.rank
  · rw [← hi.count, ← h.count]
    simp [Series.nodes, List.countP_append, Nat.add_assoc]
  · intro t ht
    rcases hi.keyword with he | ⟨u, hu, hk, rfl⟩
    · have := h.keyword t (he ▸ ht)
      simp [this]
    · obtain rfl : t = u := by simpa [hu, eq_comm] using ht
      simp [hk]

theorem OptionRead.first {seen : Bool} {o : CaseOptions} {i : Segment}
    (h : OptionRead s seen ⟨[], [], none⟩ o i s') : OptionsRead s seen o ⟨[i], []⟩ s' := by
  constructor
  · simpa [Series.tokens, weave] using h.reads
  · simpa [Series.nodes] using h.options
  · exact h.commas
  · simp
  · rfl
  · simpa using h.derives
  · simpa using h.rank
  · simpa [Series.nodes] using h.count
  · intro t ht
    rcases h.keyword with he | ⟨u, hu, hk, rfl⟩
    · simp [he] at ht
    · obtain rfl : t = u := by simpa [hu, eq_comm] using ht
      simp [hk]

def optionRound (g : Grammar) (seen : Bool) (o : CaseOptions) :
    Parser (CaseOptions ⊕ CaseOptions) := do
  if ← atSymbol .comma then
    let comma ← advanceLeaf
    .inl <$> caseOption g seen { o with commas := comma :: o.commas }
  else return .inr { o with options := o.options.reverse, commas := o.commas.reverse }

theorem OptionsRead.round (hg : g.Sound) (hs : s.Closed) {seen : Bool} {o o' : CaseOptions}
    {s₁ s₂ : TokenStream} (h : ∃ l, OptionsRead s seen o l s₁)
    (hround : Gives (optionRound g seen o) scope s₁ (.inl o') s₂) :
    ∃ l, OptionsRead s seen o' l s₂ := by
  obtain ⟨l, hl⟩ := h
  simp only [optionRound, gives_bind, gives_atSymbol, gives_ite, gives_advanceLeaf, gives_map,
    gives_pure, reduceCtorEq, and_false, false_and, or_false, Sum.inl.injEq] at hround
  obtain ⟨_, _, ⟨rfl, rfl⟩, hk, _, _, ⟨rfl, rfl⟩, o'', ho, rfl⟩ := hround
  have hk : s₁.current.kind = .symbol .comma := by simpa using hk
  have hs₁ := hl.reads.closed hs
  obtain ⟨i, hi⟩ := caseOption_reads hg hs₁.tail ho
  exact ⟨_, hl.snoc hk ((hs₁.reads_tail (by simp [hk])).trans hi.reads) ⟨_, hi⟩⟩

theorem caseOptions_reads (hg : g.Sound) (hs : s.Closed) {seen : Bool} {o : CaseOptions}
    (h : Gives (caseOptions g seen) scope s o s') :
    ∃ l, OptionsRead s seen
      { o with options := o.options.reverse, commas := o.commas.reverse } l s' := by
  simp only [caseOptions, gives_bind] at h
  obtain ⟨first, s₀, hfirst, h⟩ := h
  obtain ⟨i, hi⟩ := caseOption_reads hg hs hfirst
  have h : Gives (repeatFrom (optionRound g seen) first) scope s₀ o s' := h
  refine repeatFrom_invariant (fun o s₁ => ∃ l, OptionsRead s seen o l s₁)
    (fun o s₁ => ∃ l, OptionsRead s seen
      { o with options := o.options.reverse, commas := o.commas.reverse } l s₁)
    (fun _ _ _ _ => OptionsRead.round hg hs) ?_ ⟨_, hi.first⟩ h
  rintro o s₁ o' s₂ ⟨l, hl⟩ hround
  simp only [optionRound, gives_bind, gives_atSymbol, gives_ite, gives_advanceLeaf, gives_map,
    gives_pure, reduceCtorEq, and_false, exists_false, false_or, Sum.inr.injEq] at hround
  obtain ⟨_, _, ⟨rfl, rfl⟩, _, rfl, rfl⟩ := hround
  exact ⟨l, by simpa using hl⟩

theorem caseArm_reads (hg : g.Sound) (seen : Bool) (s : TokenStream) (r : Node × Bool)
    (s' : TokenStream) (hs : s.Closed) (h : Gives (caseArm g seen) scope s r s') :
    ∃ ts, s.Reads ts s' ∧ Derives .caseArm ts r.1 ∧
      seen.toNat + r.1.defaultCount = r.2.toNat := by
  simp only [caseArm, gives_bind, gives_current, gives_expectSymbol, gives_pure] at h
  obtain ⟨_, _, ⟨rfl, rfl⟩, o, s₁, ho, colon, _, ⟨hc, rfl, rfl⟩, block, s₃, hb, rfl, rfl⟩ := h
  obtain ⟨l, hl⟩ := caseOptions_reads hg hs ho
  have hs₁ := hl.reads.closed hs
  obtain ⟨bs, hr₂, hb⟩ := body_yields hg hs₁.tail hb
  have hr := hl.reads.trans ((hs₁.reads_tail (by simp [hc])).trans hr₂)
  have hoptions : o.options = l.nodes := by simpa using hl.options
  have hcommas : o.commas = l.leaves := by simpa using hl.commas
  have hcount := hl.count
  have hlength : l.nodes.length = l.seps.length + 1 := by
    simpa [Series.nodes, Series.Tight] using hl.tight
  split
  case h_1 t option hd hone =>
    -- One option alone, the default: its arm keeps the keyword.
    obtain ⟨hk, hmem⟩ := hl.keyword t hd
    rw [hoptions] at hone
    have hseps : l.seps = [] := by
      rw [hone] at hlength
      exact List.length_eq_zero_iff.mp (by simpa using hlength.symm)
    have hitems : l.items = [([t], t.defaultNode)] := by
      have hsingle : l.items.length = 1 := by
        rw [← List.length_map (f := Prod.snd)]
        exact congrArg List.length hone
      obtain ⟨i, hi⟩ := List.length_eq_one_iff.mp hsingle
      rw [hi] at hmem ⊢
      rw [List.mem_singleton.mp hmem]
    have htokens : l.tokens = [t] := by
      rw [Series.tokens, hitems, hseps]
      rfl
    have hcur : s.current = t := by
      have := hl.reads.head? (by simp [htokens])
      simpa [htokens, eq_comm] using this
    have hleaves : o.commas = [] := by rw [hcommas, Series.leaves, hseps]; rfl
    rw [htokens] at hr
    refine ⟨_, hr, ?_, ?_⟩
    · rw [hcur, hleaves]
      exact .caseDefault t _ hk hc hb
    · rw [← hcount]
      have : l.nodes = [t.defaultNode] := by simp [Series.nodes, hitems]
      simp [this, Node.defaultCount, Node.shape, Token.defaultNode, Node.plain, Node.kind,
        Shape.kind]
  case h_2 =>
    have hsep : l.SeparatedBy .comma := by
      have : l.items.length = l.seps.length + 1 := hl.tight
      exact ⟨hl.kinds, by omega, by omega⟩
    have hne : l.tokens ≠ [] := hl.tokens_ne_nil
    refine ⟨_, hr, ?_, ?_⟩
    · rw [hoptions, hcommas]
      exact .caseItem _ _ l hsep hl.tight hl.derives hl.ranks (hl.reads.head? hne) hc hb
    · rw [← hcount, hoptions]
      rfl

theorem caseStatement_yields (hg : g.Sound) (hs : s.Closed)
    (hk : s.current.kind = .keyword .case) (h : Gives (caseStatement g) scope s n s') :
    s.Yields .statement n s' := by
  simp only [caseStatement, gives_bind, gives_advance, gives_withBraceBlocks, gives_expectSymbol,
    gives_pure] at h
  obtain ⟨_, _, ⟨rfl, rfl⟩, subject, s₁, hsub, opener, _, ⟨ho, rfl, rfl⟩, r, s₂, hl, close, _,
    ⟨hc, rfl, rfl⟩, rfl, rfl⟩ := h
  obtain ⟨⟨ss, hr₁, hsub⟩, -, -⟩ := binaryIn_yields hg hs.tail hsub
  have hr := (hs.reads_tail (by simp [hk])).trans hr₁
  have hs₁ := hr.closed hs
  obtain ⟨items, hr₂, hitems, ht, -⟩ := untilClosed_reads (P := fun seen ts n seen' =>
    Derives .caseArm ts n ∧ seen.toNat + n.defaultCount = seen'.toNat)
    (fun seen s r s' hs _ h => caseArm_reads hg seen s r s' hs h) hs₁.tail hl
  have hcount := ht.sum_eq Node.defaultCount Bool.toNat fun _ _ _ _ h => h.2
  have hl : Series.tokens ⟨items, []⟩ = items.flatMap Prod.fst := by
    rw [Series.tokens, weave_nil, List.flatMap]
  obtain ⟨hr₂, hb⟩ := hs₁.reads_group ho (hl ▸ hr₂) hc
  refine ⟨_, hr.trans hr₂, ?_⟩
  rw [hitems]
  refine .caseStatement _ ⟨_, ⟨items, []⟩, _⟩ hk hsub hb rfl
    (ht.forall_mem fun _ _ _ _ h => h.1) ?_
  have := r.2.toNat_le
  simp only [Group.nodes, Series.nodes, List.map_map, Function.comp_def]
  simp only [Bool.toNat_false] at hcount
  omega

/-! ## Composition -/

theorem compositionArray_yields (hg : g.Sound) (hs : s.Closed)
    (hk : s.current.kind = .symbol .leftBracket) (h : Gives (compositionArray g) scope s n s') :
    s.Yields .target n s' := by
  simp only [compositionArray, gives_bind, gives_advance, gives_nextIs, gives_expectSymbol,
    gives_pure] at h
  obtain ⟨_, _, ⟨rfl, rfl⟩, _, _, ⟨rfl, rfl⟩, r, s₁, hl, close, _, ⟨hc, rfl, rfl⟩, rfl, rfl⟩ := h
  by_cases hstring : s.tail.current.kind = .string
  · simp only [hstring, decide_true, if_true] at hl ⊢
    obtain ⟨l, hr, rfl, hsep, hd⟩ := commaList_reads (P := Derives .string) (fun s n s' hs h => by
      simp only [gives_bind, gives_expect, gives_lift] at h
      obtain ⟨_, _, ⟨ht, rfl, rfl⟩, hn, rfl⟩ := h
      have hr := hs.reads_tail (by simp [ht])
      exact ⟨_, hr, stringNode_derives hg
        (hr.closed_of_mem hs (List.mem_singleton_self _)) ht hn⟩) hs.tail hl
    obtain ⟨hr, hb⟩ := hs.reads_group hk hr hc
    exact ⟨_, hr, .stringArray ⟨_, l, _⟩ hb hsep hd⟩
  · simp only [hstring, decide_false, if_false, Bool.false_eq_true] at hl ⊢
    obtain ⟨l, hr, rfl, hsep, hd⟩ := commaList_reads
      (P := fun ts n => ∃ t : Token, t.kind = .name ∧ (ts, n) = ([t], t.identifier))
      (fun s n s' hs h => by
        simp only [gives_bind, gives_expect, gives_pure] at h
        obtain ⟨_, _, ⟨ht, rfl, rfl⟩, rfl, rfl⟩ := h
        exact ⟨_, hs.reads_tail (by simp [ht]), _, ht, rfl⟩) hs.tail hl
    obtain ⟨hr, hb⟩ := hs.reads_group hk hr hc
    exact ⟨_, hr, .nameArray ⟨_, l, _⟩ hb hsep hd⟩

/-- A bracket that touches a capitalised name makes a reference of it. -/
theorem referenceOperand_kind (hs : s.Closed) (hk : s.current.kind = .reference)
    (hb : s.second.kind = .symbol .leftBracket)
    (ht : s.second.span.start = s.current.span.stop)
    (h : Gives (referenceOperand g) scope s n s') : n.kind = .reference := by
  have hcur : s.tail.current = s.second ∧ s.tail.touches = true := by
    obtain ⟨rest, last, stop⟩ := s
    cases rest with
    | nil => exact absurd (hs.last.symm.trans hk) (by decide)
    | cons t ts =>
      refine ⟨rfl, ?_⟩
      exact decide_eq_true (congrArg some ht.symm)
  simp only [referenceOperand, gives_bind, gives_advance, gives_atTouching, gives_atSymbol,
    gives_ite, gives_pure] at h
  obtain ⟨_, _, ⟨rfl, rfl⟩, _, _, ⟨rfl, rfl⟩, ⟨_, b, s₁, _, rfl, rfl⟩ | ⟨hne, _⟩⟩ := h
  · rfl
  · simp [hcur, hb] at hne

theorem compositionTarget_yields (hg : g.Sound) : ∀ s n s', s.Closed →
    Gives (compositionTarget g) scope s n s' → s.Yields .target n s' := by
  intro s n s' hs h
  simp only [compositionTarget, gives_bind, gives_current, gives_second] at h
  obtain ⟨_, _, ⟨rfl, rfl⟩, _, _, ⟨rfl, rfl⟩, h⟩ := h
  split at h
  case h_1 hk =>
    simp only [gives_bind, gives_advance, gives_pure] at h
    obtain ⟨_, _, ⟨rfl, rfl⟩, rfl, rfl⟩ := h
    exact ⟨_, hs.reads_tail (by simp [hk]), .namedTarget _ hk⟩
  case h_2 hk =>
    simp only [gives_bind, gives_advance, gives_pure] at h
    obtain ⟨_, _, ⟨rfl, rfl⟩, rfl, rfl⟩ := h
    exact ⟨_, hs.reads_tail (by simp [hk]), .variableTarget _ hk⟩
  case h_3 hk =>
    simp only [gives_bind, gives_advance, gives_lift] at h
    obtain ⟨_, _, ⟨rfl, rfl⟩, hn, rfl⟩ := h
    have hr := hs.reads_tail (by simp [hk])
    exact ⟨_, hr, .stringTarget
      (stringNode_derives hg (hr.closed_of_mem hs (List.mem_singleton_self _)) hk hn)⟩
  case h_4 hk => exact compositionArray_yields hg hs hk h
  case h_5 hk =>
    simp only [gives_ite, gives_unexpected, and_false, or_false, Bool.and_eq_true,
      decide_eq_true_eq] at h
    obtain ⟨⟨hb, ht⟩, h⟩ := h
    obtain ⟨ts, hr, hd⟩ := referenceOperand_yields hg hs hk h
    exact ⟨ts, hr, .referenceTarget hd (referenceOperand_kind hs hk hb ht h)⟩
  case h_6 => exact absurd h gives_unexpected

theorem composition_yields (hg : g.Sound) (hs : s.Closed) (verb : CompositionVerb)
    (hk : s.current.kind = .keyword verb.keyword)
    (h : Gives (composition g verb) scope s n s') : s.Yields .statement n s' := by
  simp only [composition, gives_bind, gives_advance, gives_pure] at h
  obtain ⟨_, _, ⟨rfl, rfl⟩, r, s₁, hl, rfl, rfl⟩ := h
  obtain ⟨l, hr, rfl, hsep, htight, hd⟩ :=
    commaSeparated_reads (compositionTarget_yields hg) hs.tail hl
  refine ⟨_, (hs.reads_tail (by simp [hk])).trans hr, ?_⟩
  simpa [Series.nodes, Function.comp_def] using
    Derives.composition s.current verb l hk hsep htight hd

/-! ## Declarations -/

theorem declaredName_reads {n : Node} (h : Gives declaredName scope s n s') :
    s.current.kind = .name ∧ n = s.current.identifier ∧ s' = s.tail := by
  simp only [declaredName, gives_bind, gives_current, gives_ite, gives_unexpected, and_false,
    false_or, gives_advance, gives_pure, Decidable.not_not] at h
  obtain ⟨_, _, ⟨rfl, rfl⟩, hk, _, _, ⟨rfl, rfl⟩, rfl, rfl⟩ := h
  exact ⟨hk, rfl, rfl⟩

theorem optionalParameters_reads (hg : g.Sound) (hs : s.Closed) {r : Option Node}
    (h : Gives (optionalParameters g) scope s r s') :
    ∃ o : Option Segment, s.Reads (tokensOf o) s' ∧ r = o.map Prod.snd ∧
      ∀ x ∈ o, Derives (.parameters .leftParen .rightParen) x.1 x.2 := by
  simp only [optionalParameters, gives_bind, gives_atSymbol] at h
  obtain ⟨_, _, ⟨rfl, rfl⟩, h⟩ := h
  exact reads_optional hs (p := withBraceBlocks true (parameterList g .leftParen .rightParen))
    (fun _ _ _ hs h => parameterList_yields hg _ _ hs (gives_withBraceBlocks.mp h)) h

theorem optionalInheritance_reads (hs : s.Closed) {r : Option Node}
    (h : Gives optionalInheritance scope s r s') :
    ∃ o : Option (Token × Token), s.Reads ((o.map fun p => [p.1, p.2]).getD []) s' ∧
      r = o.map (fun p => .mk (p.1.span.join p.2.span) [p.1.leaf]
        (.inheritance p.2.identifier)) ∧
      (∀ p ∈ o, p.1.kind = .keyword .inherits) ∧ ∀ p ∈ o, p.2.kind = .name := by
  simp only [optionalInheritance, gives_bind, gives_nextIs, gives_ite, gives_advance,
    gives_pure] at h
  obtain ⟨_, _, ⟨rfl, rfl⟩, ⟨hk, _, _, ⟨rfl, rfl⟩, name, s₁, h, rfl, rfl⟩ | ⟨_, rfl, rfl⟩⟩ := h
  · obtain ⟨hn, rfl, rfl⟩ := declaredName_reads h
    have hk : s.current.kind = .keyword .inherits := by simpa using hk
    exact ⟨some (s.current, s.tail.current),
      (hs.reads_tail (by simp [hk])).trans (hs.tail.reads_tail (by simp [hn])), rfl,
      by simpa using hk, by simpa using hn⟩
  · exact ⟨none, .refl s, rfl, by simp, by simp⟩

theorem declaration_yields (hg : g.Sound) (hs : s.Closed) (k : DeclarationKeyword)
    (hk : s.current.kind = .keyword k.keyword)
    (h : Gives (declaration g k) scope s n s') : s.Yields .statement n s' := by
  simp only [declaration, gives_bind, gives_advance, gives_pure] at h
  obtain ⟨_, _, ⟨rfl, rfl⟩, name, s₁, hname, ps, s₂, hp, i, s₃, hi, block, s₄, hb, rfl, rfl⟩ := h
  obtain ⟨hn, rfl, rfl⟩ := declaredName_reads hname
  have hr := (hs.reads_tail (by simp [hk])).trans (hs.tail.reads_tail (by simp [hn]))
  obtain ⟨parameters, hr₁, rfl, hparameters⟩ := optionalParameters_reads hg (hr.closed hs) hp
  have hr := hr.trans hr₁
  obtain ⟨parent, hr₂, rfl, hinherits, hparent⟩ := optionalInheritance_reads (hr.closed hs) hi
  have hr := hr.trans hr₂
  obtain ⟨bs, hr₃, hd⟩ := body_yields hg (hr.closed hs) hb
  exact ⟨_, hr.trans hr₃, .declaration _ _ k parameters parent hk hn hparameters hinherits
    hparent hd⟩

theorem typeDeclaration_yields (hg : g.Sound) (hs : s.Closed)
    (hk : s.current.kind = .keyword .type) (h : Gives (typeDeclaration g) scope s n s') :
    s.Yields .statement n s' := by
  simp only [typeDeclaration, gives_bind, gives_advance, gives_expect, gives_expectSymbol,
    gives_pure] at h
  obtain ⟨_, _, ⟨rfl, rfl⟩, _, _, ⟨hn, rfl, rfl⟩, _, _, ⟨he, rfl, rfl⟩, type, s₁, ht, rfl, rfl⟩ := h
  obtain ⟨ts, hr, hd⟩ := typeExpression_yields hg hs.tail.tail.tail ht
  have hr := (hs.reads_tail (by simp [hk])).trans ((hs.tail.reads_tail (by simp [hn])).trans
    ((hs.tail.tail.reads_tail (by simp [he])).trans hr))
  exact ⟨_, hr, .typeDeclaration _ _ _ hk hn he hd⟩

theorem functionDeclaration_yields (hg : g.Sound) (hs : s.Closed)
    (hk : s.current.kind = .keyword .function) (h : Gives (functionDeclaration g) scope s n s') :
    s.Yields .statement n s' := by
  simp only [functionDeclaration, ite_bind, gives_bind, gives_advance, gives_atSymbol,
    gives_pure] at h
  obtain ⟨_, _, ⟨rfl, rfl⟩, name, s₁, hname, ps, s₂, hp, _, _, ⟨rfl, rfl⟩, arrow, s₃, ha, type,
    s₄, ht, block, s₅, hb, rfl, rfl⟩ := h
  obtain ⟨hn, rfl, rfl⟩ := declaredName_reads hname
  have hr := (hs.reads_tail (by simp [hk])).trans (hs.tail.reads_tail (by simp [hn]))
  obtain ⟨parameters, hr₁, rfl, hparameters⟩ := optionalParameters_reads hg (hr.closed hs) hp
  have hr := hr.trans hr₁
  obtain ⟨o, hr₂, rfl, ho⟩ := reads_optionalLeaf (hr.closed hs) ha
  have hr := hr.trans hr₂
  have hd (result : Option (Token × Segment)) (hr' : s₃.Reads ((result.map fun r => r.2.1).getD [])
      s₄) (hresult : o = result.map Prod.fst) (htype : type = result.map fun r => r.2.2)
      (hd : ∀ r ∈ result, Derives .type r.2.1 r.2.2) : s.Yields .statement
        (.mk (s.current.span.join block.span) (s.current.leaf :: (o.map Token.leaf).toList)
          (.functionDeclaration s.tail.current.identifier (parameters.map Prod.snd) type block))
        s₅ := by
    have hr := hr.trans hr'
    obtain ⟨bs, hr₄, hb⟩ := body_yields hg (hr.closed hs) hb
    have hall := Derives.functionDeclaration _ _ parameters result hk hn hparameters
      (by subst hresult; simpa using ho) hd hb
    subst hresult htype
    refine ⟨_, hr.trans hr₄, ?_⟩
    cases result <;> simpa [Option.toList] using hall
  cases o with
  | none =>
    simp only [Option.map_none, Option.isSome_none, Bool.false_eq_true, if_false, gives_pure] at ht
    obtain ⟨rfl, rfl⟩ := ht
    exact hd none (.refl _) rfl rfl (by simp)
  | some arrow =>
    simp only [Option.map_some, Option.isSome_some, if_true, gives_map] at ht
    obtain ⟨type, ht, rfl⟩ := ht
    obtain ⟨ts, hr₃, htype⟩ := typeExpression_yields hg (hr.closed hs) ht
    exact hd (some (arrow, ts, type)) hr₃ rfl rfl (by simpa using htype)

/-! ## Node definitions -/

theorem nodeMatch_yields (hg : g.Sound) : ∀ s n s', s.Closed → Gives (nodeMatch g) scope s n s' →
    s.Yields .nodeMatch n s' := by
  intro s n s' hs h
  simp only [nodeMatch, gives_bind, gives_current] at h
  obtain ⟨_, _, ⟨rfl, rfl⟩, h⟩ := h
  split at h
  case h_1 hk =>
    simp only [gives_bind, gives_advance, gives_lift] at h
    obtain ⟨_, _, ⟨rfl, rfl⟩, hn, rfl⟩ := h
    have hr := hs.reads_tail (by simp [hk])
    exact ⟨_, hr, .stringMatch
      (stringNode_derives hg (hr.closed_of_mem hs (List.mem_singleton_self _)) hk hn)⟩
  case h_2 hk =>
    simp only [gives_bind, gives_advance, gives_pure] at h
    obtain ⟨_, _, ⟨rfl, rfl⟩, rfl, rfl⟩ := h
    exact ⟨_, hs.reads_tail (by simp [hk]), .regexMatch _ hk⟩
  case h_3 hk =>
    simp only [gives_bind, gives_advance, gives_pure] at h
    obtain ⟨_, _, ⟨rfl, rfl⟩, rfl, rfl⟩ := h
    exact ⟨_, hs.reads_tail (by simp [hk]), .defaultMatch _ hk⟩
  case h_4 => exact absurd h gives_unexpected

theorem nodeDefinition_yields (hg : g.Sound) (hs : s.Closed)
    (hk : s.current.kind = .keyword .node) (h : Gives (nodeDefinition g) scope s n s') :
    s.Yields .statement n s' := by
  simp only [nodeDefinition, gives_bind, gives_advance, gives_pure] at h
  obtain ⟨_, _, ⟨rfl, rfl⟩, r, s₁, hl, block, s₂, hb, rfl, rfl⟩ := h
  obtain ⟨l, hr, rfl, hsep, htight, hd⟩ := commaSeparated_reads (nodeMatch_yields hg) hs.tail hl
  have hr := (hs.reads_tail (by simp [hk])).trans hr
  obtain ⟨bs, hr₁, hb⟩ := body_yields hg (hr.closed hs) hb
  exact ⟨_, hr.trans hr₁, .nodeDefinition _ l hk hsep htight hd hb⟩

/-! ## Resources -/

theorem resourceBody_yields (hg : g.Sound) : ∀ s n s', s.Closed →
    Gives (resourceBody g) scope s n s' → s.Yields .resourceBody n s' := by
  intro s n s' hs h
  simp only [resourceBody, gives_bind, gives_current, gives_ite, gives_reject, gives_unexpected,
    and_false, false_or, gives_advance, gives_pure, Decidable.not_not] at h
  obtain ⟨title, s₁, ht, _, _, ⟨rfl, rfl⟩, _, hc, _, _, ⟨rfl, rfl⟩, r, s₂, hl, rfl, rfl⟩ := h
  obtain ⟨⟨ts, hr, ht⟩, hrank, -⟩ := binaryIn_yields hg hs ht
  have hs₁ := hr.closed hs
  obtain ⟨l, hr₁, rfl, hsep, hd⟩ := attributes_reads hg hs₁.tail hl
  refine ⟨_, hr.trans ((hs₁.reads_tail (by simp [hc])).trans hr₁), ?_⟩
  have hbody := Derives.resourceBody _ l ht hrank hc hsep hd
  have hlast : l.nodes.getLast?.map Node.span = l.items.getLast?.map fun i => i.2.span := by
    rw [Series.nodes, List.getLast?_map, Option.map_map]
    rfl
  have hcomma : l.leaves.getLast? = l.seps.getLast?.map Token.leaf := List.getLast?_map
  unfold Series.stopAfter at hbody
  rw [hlast, hcomma]
  cases hsome : l.seps.getLast? with
  | none =>
    rw [hsome] at hbody
    exact hbody
  | some comma =>
    rw [hsome] at hbody
    exact hbody

theorem resourceBodies_reads (hg : g.Sound) (hs : s.Closed) {r : List Node × List Leaf}
    (h : Gives (resourceBodies g) scope s r s') :
    ∃ l : Series, s.Reads l.tokens s' ∧ r = (l.nodes, l.leaves) ∧ l.SeparatedBy .semicolon ∧
      l.items ≠ [] ∧ ∀ i ∈ l.items, Derives .resourceBody i.1 i.2 := by
  refine repeatFrom_invariant
    (fun st s₁ => ∃ l : Series, s.Reads l.tokens s₁ ∧ st = (l.nodes.reverse, l.leaves.reverse) ∧
      (∀ t ∈ l.seps, t.kind = .symbol .semicolon) ∧ l.items.length = l.seps.length ∧
      ∀ i ∈ l.items, Derives .resourceBody i.1 i.2)
    (fun r s₁ => ∃ l : Series, s.Reads l.tokens s₁ ∧ r = (l.nodes, l.leaves) ∧
      l.SeparatedBy .semicolon ∧ l.items ≠ [] ∧ ∀ i ∈ l.items, Derives .resourceBody i.1 i.2)
    ?_ ?_ ⟨⟨[], []⟩, .refl s, rfl, by simp, rfl, by simp⟩ h
  all_goals
    rintro ⟨bodies, semicolons⟩ s₁ st s₂ ⟨l, hr, hst, hk, hl, hd⟩ hstep
    obtain ⟨rfl, rfl⟩ := Prod.mk.inj hst
    simp only [gives_bind, gives_atSymbol, gives_ite, gives_advanceLeaf, gives_pure,
      reduceCtorEq, false_and, and_false, false_or, or_false, Sum.inl.injEq,
      Sum.inr.injEq] at hstep
    obtain ⟨n, s₃, hn, _, _, ⟨rfl, rfl⟩, hstep⟩ := hstep
    obtain ⟨ts, hr₁, hn⟩ := resourceBody_yields hg _ _ _ (hr.closed hs) hn
    have hr₁ := hr.trans hr₁
    have hd' : ∀ i ∈ l.items ++ [(ts, n)], Derives .resourceBody i.1 i.2 := by
      intro i hi
      rcases List.mem_append.mp hi with hi | hi
      · exact hd i hi
      · rwa [List.mem_singleton.mp hi]
    have hk' {t : Token} (ht : t.kind = .symbol .semicolon) :
        ∀ u ∈ l.seps ++ [t], u.kind = .symbol .semicolon := by
      simpa [or_imp, forall_and] using ⟨hk, ht⟩
  · obtain ⟨hsemi, _, _, ⟨rfl, rfl⟩, _, _, ⟨rfl, rfl⟩, _, rfl, rfl⟩ := hstep
    have hsemi : s₃.current.kind = .symbol .semicolon := by simpa using hsemi
    refine ⟨⟨l.items ++ [(ts, n)], l.seps ++ [s₃.current]⟩, ?_, ?_, hk' hsemi, by simp [hl], hd'⟩
    · rw [Series.tokens_item_sep hl]
      exact hr₁.trans ((hr₁.closed hs).reads_tail (by simp [hsemi]))
    · simp [Series.nodes, Series.leaves]
  · rcases hstep with ⟨hsemi, _, _, ⟨rfl, rfl⟩, _, _, ⟨rfl, rfl⟩, _, rfl, rfl⟩ | ⟨_, rfl, rfl⟩
    · have hsemi : s₃.current.kind = .symbol .semicolon := by simpa using hsemi
      refine ⟨⟨l.items ++ [(ts, n)], l.seps ++ [s₃.current]⟩, ?_, ?_,
        ⟨hk' hsemi, by simp [hl], by simp [hl]⟩, by simp, hd'⟩
      · rw [Series.tokens_item_sep hl]
        exact hr₁.trans ((hr₁.closed hs).reads_tail (by simp [hsemi]))
      · simp [Series.nodes, Series.leaves]
    · refine ⟨⟨l.items ++ [(ts, n)], l.seps⟩, ?_, ?_, ⟨hk, by simp [hl], by simp [hl]⟩, by simp,
        hd'⟩
      · rw [Series.tokens_item hl]
        exact hr₁
      · simp [Series.nodes, Series.leaves]

/-- The sign in front of a resource, which an ordinary one lacks. -/
theorem resourceForm_sign {k : TokenKind} (h : resourceForm k ≠ .ordinary) :
    k ≠ .endOfInput := by
  rintro rfl
  exact h rfl

theorem resourceCall_yields (hg : g.Sound) (hs : s.Closed)
    (h : Gives (resourceCall g) scope s n s') :
    s.Yields .statement n s' ∧ n.kind = .resourceCall := by
  simp only [resourceCall, ite_bind, gives_bind, gives_current] at h
  obtain ⟨_, _, ⟨rfl, rfl⟩, leaf, s₁, hsign, _, _, ⟨rfl, rfl⟩, h⟩ := h
  simp only [gives_ite, gives_unexpected, and_false, false_or, gives_bind, gives_advance,
    gives_expectSymbol, gives_withBraceBlocks, gives_current, gives_reject, gives_pure,
    Decidable.not_not] at h
  obtain ⟨hname, _, _, ⟨rfl, rfl⟩, opener, _, ⟨ho, rfl, rfl⟩, r, s₂, hl, _, _, ⟨rfl, rfl⟩, hc, _,
    _, ⟨rfl, rfl⟩, rfl, rfl⟩ := h
  refine ⟨?_, rfl⟩
  have hname : s₁.current.kind = .name ∨ s₁.current.kind = .keyword .class := by
    simp only [Bool.and_eq_true, decide_eq_true_eq, ne_eq, not_and, Decidable.not_not] at hname
    exact Decidable.or_iff_not_imp_left.mpr hname
  have hend : s₁.current.kind ≠ .endOfInput := by rcases hname with hk | hk <;> simp [hk]
  have hsign : ∃ sign : Option Token, s.Reads sign.toList s₁ ∧ leaf = sign.map Token.leaf ∧
      (∀ x ∈ sign, resourceForm s.current.kind = resourceForm x.kind) ∧
      (sign = none ↔ resourceForm s.current.kind = .ordinary) ∧
      s.current = sign.getD s₁.current := by
    simp only [gives_ite, gives_map, gives_advanceLeaf, gives_pure] at hsign
    rcases hsign with ⟨hf, _, ⟨rfl, rfl⟩, rfl⟩ | ⟨hf, rfl, rfl⟩
    · exact ⟨some s.current, hs.reads_tail (resourceForm_sign hf), rfl, by simp, by simpa using hf,
        rfl⟩
    · exact ⟨none, .refl s, rfl, by simp, by simpa using hf, rfl⟩
  obtain ⟨sign, hr, rfl, hform, hnone, hfirst⟩ := hsign
  have hs₁ := hr.closed hs
  obtain ⟨l, hr₁, rfl, hsep, hne, hd⟩ := resourceBodies_reads hg hs₁.tail.tail hl
  obtain ⟨hr₁, hb⟩ := hs₁.tail.reads_group ho hr₁ hc
  have hall := Derives.resourceCall sign s₁.current _ ⟨_, l, _⟩ hform hnone hname hb hsep hne hd
  refine ⟨_, hr.trans ((hs₁.reads_tail hend).trans hr₁), ?_⟩
  rw [← hfirst] at hall
  have hn : s₁.current.named .resourceType = s₁.current.identifier := rfl
  rw [hn]
  cases sign <;> exact hall

theorem resourceDefaults_yields (hg : g.Sound) (hs : s.Closed) (hk : s.current.kind = .reference)
    (h : Gives (resourceDefaults g) scope s n s') : s.Yields .statement n s' := by
  simp only [resourceDefaults, gives_bind, gives_advance, gives_expectSymbol,
    gives_withBraceBlocks, gives_pure] at h
  obtain ⟨_, _, ⟨rfl, rfl⟩, _, _, ⟨ho, rfl, rfl⟩, r, s₁, hl, _, _, ⟨hc, rfl, rfl⟩, rfl, rfl⟩ := h
  obtain ⟨l, hr, rfl, hsep, hd⟩ := attributes_reads hg hs.tail.tail hl
  obtain ⟨hr, hb⟩ := hs.tail.reads_group ho hr hc
  exact ⟨_, (hs.reads_tail (by simp [hk])).trans hr,
    .resourceDefaults _ ⟨_, l, _⟩ hk hb hsep hd⟩

/-! ## Chains -/

theorem chainElement_yields (hg : g.Sound) (hs : s.Closed)
    (h : Gives (chainElement g) scope s n s') :
    s.Yields .statement n s' ∧ isChainElement n.kind ∧ n.kind ≠ .relation := by
  simp only [chainElement, gives_bind, gives_current, gives_second, gives_ite, gives_reject,
    gives_pure, and_false, or_false] at h
  obtain ⟨_, _, ⟨rfl, rfl⟩, _, _, ⟨rfl, rfl⟩, ⟨_, h⟩ | ⟨_, m, s₁, hm, hk, rfl, rfl⟩⟩ := h
  · obtain ⟨hy, hk⟩ := resourceCall_yields hg hs h
    exact ⟨hy, by rw [hk]; decide, by rw [hk]; decide⟩
  · obtain ⟨ts, hr, hd⟩ := operand_yields hg hs hm
    exact ⟨⟨ts, hr, .expressionStatement (.plainCommand (.single true (.bareOperand hd)))⟩, hk,
      hd.kind_ne_relation⟩

/-- Each arrow makes a chain of the chain so far and what follows the arrow. -/
theorem chain_reads (hg : g.Sound) (hs : s.Closed) {ts₀ : List Token} {left : Node}
    (hd₀ : Derives .statement ts₀ left) (hk₀ : isChainElement left.kind)
    (h : Gives (chain g left) scope s n s') :
    ∃ ts, s.Reads ts s' ∧ Derives .statement (ts₀ ++ ts) n := by
  refine repeatFrom_invariant
    (fun m s₁ => ∃ ts, s.Reads ts s₁ ∧ Derives .statement (ts₀ ++ ts) m ∧ isChainElement m.kind)
    (fun m s₁ => ∃ ts, s.Reads ts s₁ ∧ Derives .statement (ts₀ ++ ts) m)
    ?_ ?_ ⟨[], .refl s, by simpa using hd₀, hk₀⟩ h
  · rintro m s₁ m' s₂ ⟨ts, hr, hd, hk⟩ hstep
    simp only [gives_bind, gives_current] at hstep
    obtain ⟨_, _, ⟨rfl, rfl⟩, hstep⟩ := hstep
    split at hstep
    · simp at hstep
    rename_i arrow ha
    simp only [gives_bind, gives_advanceLeaf, gives_pure, Sum.inl.injEq] at hstep
    obtain ⟨_, _, ⟨rfl, rfl⟩, r, s₃, hright, rfl, rfl⟩ := hstep
    have hs₁ := hr.closed hs
    obtain ⟨⟨us, hus, hd'⟩, hk', hne⟩ := chainElement_yields hg hs₁.tail hright
    have hr₁ := hs₁.reads_tail (by intro he; simp [he, chainArrow?] at ha)
    refine ⟨_, hr.trans (hr₁.trans hus), ?_, rfl⟩
    rw [← List.append_assoc]
    exact .relation _ arrow ha hd hd' hk hk' hne
  · rintro m s₁ m' s₂ ⟨ts, hr, hd, -⟩ hstep
    simp only [gives_bind, gives_current] at hstep
    obtain ⟨_, _, ⟨rfl, rfl⟩, hstep⟩ := hstep
    split at hstep
    · simp only [gives_pure, Sum.inr.injEq] at hstep
      obtain ⟨rfl, rfl⟩ := hstep
      exact ⟨ts, hr, hd⟩
    · simp at hstep

/-! ## Statements -/

theorem unchained_yields (hg : g.Sound) (hs : s.Closed) (h : Gives (unchained g) scope s n s') :
    s.Yields .statement n s' := by
  simp only [unchained, gives_bind, gives_current, gives_second] at h
  obtain ⟨_, _, ⟨rfl, rfl⟩, _, _, ⟨rfl, rfl⟩, h⟩ := h
  split at h
  case h_1 hk => exact ifStatement_yields hg hs hk h
  case h_2 hk => exact unlessStatement_yields hg hs hk h
  case h_3 hk => exact caseStatement_yields hg hs hk h
  case h_4 hk => exact composition_yields hg hs .include hk h
  case h_5 hk => exact composition_yields hg hs .require hk h
  case h_6 hk => exact composition_yields hg hs .contain hk h
  case h_7 hk =>
    rcases gives_ite.mp h with ⟨_, h⟩ | ⟨_, h⟩
    · exact (resourceCall_yields hg hs h).1
    · exact declaration_yields hg hs .class hk h
  case h_8 hk => exact declaration_yields hg hs .define hk h
  case h_9 hk => exact declaration_yields hg hs .plan hk h
  case h_10 hk => exact typeDeclaration_yields hg hs hk h
  case h_11 hk => exact functionDeclaration_yields hg hs hk h
  case h_12 hk => exact nodeDefinition_yields hg hs hk h
  case h_13 =>
    simp only [gives_ite, Bool.and_eq_true, decide_eq_true_eq] at h
    rcases h with ⟨_, h⟩ | ⟨_, ⟨⟨hk, _⟩, h⟩ | ⟨_, h⟩⟩
    · exact (resourceCall_yields hg hs h).1
    · exact resourceDefaults_yields hg hs hk h
    · obtain ⟨⟨ts, hr, hd⟩, -, -⟩ := command_yields hg hs h
      exact ⟨ts, hr, .expressionStatement hd⟩

theorem statement_yields (hg : g.Sound) (hs : s.Closed) (h : Gives (statement g) scope s n s') :
    s.Yields .statement n s' := by
  simp only [statement, gives_bind, gives_ite, gives_pure] at h
  obtain ⟨first, s₁, hfirst, ⟨hk, h⟩ | ⟨_, rfl, rfl⟩⟩ := h
  · obtain ⟨ts, hr, hd⟩ := unchained_yields hg hs hfirst
    obtain ⟨us, hr₁, hd⟩ := chain_reads hg (hr.closed hs) hd hk h
    exact ⟨_, hr.trans hr₁, hd⟩
  · exact unchained_yields hg hs hfirst

/-! ## The grammar -/

theorem exhausted_sound : Grammar.exhausted.Sound where
  binary _ h := absurd h gives_fail
  command _ h := absurd h gives_fail
  unary _ h := absurd h gives_fail
  type _ h := absurd h gives_fail
  statement _ h := absurd h gives_fail
  interpolated _ h := by cases h

/-- Whatever its bound on nesting, the grammar is sound. -/
theorem grammar_sound (bound : Nat) : (grammar bound).Sound := by
  induction bound with
  | zero => exact exhausted_sound
  | succ bound ih =>
    exact {
      binary := fun hs h => binaryIn_yields ih hs h
      command := fun hs h => command_yields ih hs h
      unary := fun hs h => unary_yields ih hs h
      type := fun hs h => typeExpression_yields ih hs h
      statement := fun hs h => statement_yields ih hs h
      interpolated := fun hc h => interpolated_derives ih hc h }

/-- The statements that tokens make, one after the other. -/
theorem tokens_derive {inner : List Token} {p : Position} {ns : List Node}
    (hc : ∀ t ∈ inner, t.Closed) (h : Parse.tokens (inner ++ [Token.endAt p]) = .ok ns) :
    ∃ items : List Segment, inner = items.flatMap Prod.fst ∧ ns = items.map Prod.snd ∧
      ∀ i ∈ items, Derives .statement i.1 i.2 := by
  obtain ⟨s', hrun⟩ := runOn_eq_ok.mp h
  simp only [statements, gives_bind, gives_pure] at hrun
  obtain ⟨r, _, hrun, rfl, rfl⟩ := hrun
  obtain ⟨items, hr, hitems, ht, hk⟩ := untilClosed_reads (P := fun _ ts n _ =>
    Derives .statement ts n) (fun _ _ _ _ hs _ h => by
      simp only [gives_bind, gives_pure] at h
      obtain ⟨n, _, hn, rfl, rfl⟩ := h
      exact statement_yields (grammar_sound _) hs hn) (ofTokens_closed hc) hrun
  exact ⟨items, (Reads.eq_inner hc hr (by simpa using hk)).symm, hitems,
    ht.forall_mem fun _ _ _ _ h => h⟩

end Parse

end ManifestTree
