import ManifestTree.Proofs.Constituents
import ManifestTree.Proofs.FirstFailure
import ManifestTree.Proofs.StatementRefusals

/-!
# Second defaults

A selector may have one choice whose key is the default, and a case statement one default among the
options of its arms.  In a parsed tree every selector and every case statement has at most one, as
the rules of the grammar count them.  A source is refused for a second default only where there is
one: a `default` keyword that is a key or an option by itself, in a selector or a case statement
whose keys or options before it hold one default already.

That is shown for the two constructs alone.  For the others it passes from the constructs within
them, as `Blame.defaults` is one more answer to what parsers may report.
-/

namespace ManifestTree

open Parse ManifestTree.Parser

/-! ## Defaults of parsed trees -/

namespace Node

/-- The choices of a selector, or the arms of a case statement. -/
def alternatives (n : Node) : List Node :=
  match n.shape with
  | .selector _ choices => choices
  | .case _ arms => arms
  | _ => []

end Node

theorem Node.alternatives_ofName (s : Span) (form : NameForm) (cs : Text) :
    (Node.plain s (.ofName form cs)).alternatives = [] := by
  obtain ⟨segments, absolute, h⟩ := @Shape.ofName_eq Node form cs
  rw [h]
  rfl

/-- What tokens derive has at most one default among its alternatives. -/
theorem Parse.Derives.alternatives {c : Category} {ts : List Token} {n : Node}
    (h : Derives c ts n) : (n.alternatives.map Node.defaultCount).sum ≤ 1 := by
  induction h with
  | quoted _ ih | bareOperand _ ih | single _ _ ih | plainCommand _ ih | nestedType _ ih
  | literalArgument _ _ _ ih | stringAttribute _ ih | valueKey _ _ ih | stringTarget _ ih
  | referenceTarget _ _ ih | stringMatch _ ih | expressionStatement _ ih => exact ih
  | selector _ g _ _ _ _ _ hcount | caseStatement _ g _ _ _ _ _ hcount => exact hcount
  | «variable» | variableTarget | name | referenceName | namedTarget | bareVariable =>
    exact (congrArg (fun ns => (ns.map Node.defaultCount).sum)
      (Node.alternatives_ofName _ _ _)).trans_le (Nat.zero_le 1)
  | _ => exact Nat.zero_le 1

/-- So has everything else in a parsed tree. -/
theorem Parse.Constituent.alternatives {n : Node} (h : Constituent n) :
    (n.alternatives.map Node.defaultCount).sum ≤ 1 := by
  cases h with
  | derived h => exact h.alternatives
  | name s form cs =>
    rw [Node.alternatives_ofName]
    exact Nat.zero_le 1
  | fragment f inner =>
    obtain ⟨text, span, piece⟩ := f
    cases piece with
    | «variable» =>
      show ((Node.plain span (.ofName .variable (text.drop 1))).alternatives.map
        Node.defaultCount).sum ≤ 1
      rw [Node.alternatives_ofName]
      exact Nat.zero_le 1
    | _ => exact Nat.zero_le 1
  | _ => exact Nat.zero_le 1

/-! ## Second defaults among tokens -/

namespace Parse

/-- A separator follows every item, so another item may come. -/
def Series.Open (l : Series) : Prop := l.items.length = l.seps.length

/-- The tokens begin a selector from its question mark, or a case statement, and end where a key or
an option begins.  Among the keys or the options before there is one default. -/
inductive HoldsDefault : DefaultHolder → List Token → Prop
  | selector (question opener : Token) (choices : Series) :
      question.kind = .symbol .question → opener.kind = .symbol .leftBrace →
      choices.Open → (∀ t ∈ choices.seps, t.kind = .symbol .comma) →
      (∀ i ∈ choices.items, Derives .selectorItem i.1 i.2) →
      (choices.nodes.map Node.defaultCount).sum = 1 →
      HoldsDefault .selector (question :: opener :: choices.tokens)
  | caseStatement (keyword opener : Token) {ss : List Token} {subject : Node}
      (arms : List Segment) (options : Series) :
      keyword.kind = .keyword .case → Derives (.expression false) ss subject →
      opener.kind = .symbol .leftBrace → (∀ i ∈ arms, Derives .caseArm i.1 i.2) →
      options.Open → (∀ t ∈ options.seps, t.kind = .symbol .comma) →
      (∀ i ∈ options.items, Derives (.expression false) i.1 i.2) →
      (∀ i ∈ options.items, i.2.rank ≤ Operator.valueRank) →
      (arms.map fun i => i.2.defaultCount).sum +
        options.nodes.countP (fun n => n.kind = .default) = 1 →
      HoldsDefault .caseStatement
        (keyword :: ss ++ opener :: arms.flatMap Prod.fst ++ options.tokens)

end Parse

/-- The second token does not go on with a value that the first one ends. -/
structure Token.EndsValue (t next : Token) : Prop where
  bracket : ¬ (next.kind = .symbol .leftBracket ∧ next.span.start = t.span.stop)
  dot : next.kind ≠ .symbol .dot
  question : next.kind ≠ .symbol .question
  operator : ∀ o, Operator.binary? next.kind = some o → Operator.valueRank < o.rank

/-- Tokens that are parsed together: all tokens of a source, or those of an interpolation. -/
inductive Token.Passage (tokens : List Token) : List Token → Prop
  | source : Passage tokens tokens
  | interpolation {f : Fragment} {ts : List Token} : f ∈ Token.deepAll tokens →
      f.piece = .interpolation ts → Passage tokens ts

/-- The token is a `default` that is a key or an option by itself, and one of the keys or options
before it in the same selector or case statement is a default as well. -/
def Token.SecondDefault (tokens : List Token) (holder : DefaultHolder) (t : Token) : Prop :=
  ∃ passage before next, Token.Passage tokens passage ∧ before ++ [t, next] <:+: passage ∧
    HoldsDefault holder before ∧ t.kind = .keyword .default ∧ t.EndsValue next

/-! ## Where a default is read alone -/

namespace Parse

variable {scope : Scope} {s s' : TokenStream}

/-- A loop that extends a node, but never to a default, answers a default only in its first
round. -/
theorem repeatFrom_default {step : Node → Parser (Node ⊕ Node)}
    (hround : ∀ x s y s', Gives (step x) scope s (.inl y) s' → y.kind ≠ .default)
    (hdone : ∀ x s y s', Gives (step x) scope s (.inr y) s' → y = x)
    {x y : Node} (h : Gives (repeatFrom step x) scope s y s') (hy : y.kind = .default) :
    y = x ∧ Gives (step x) scope s (.inr x) s' := by
  simp only [repeatFrom, gives_bind, gives_get, iterate] at h
  obtain ⟨_, _, ⟨rfl, rfl⟩, r, s₁, hr, h⟩ := h
  cases r with
  | inl z =>
    exact absurd hy (iterate_invariant (fun x _ => x.kind ≠ .default) (fun y _ => y.kind ≠ .default)
      (fun _ _ _ _ _ => hround _ _ _ _) (fun _ _ _ _ hx hr => hdone _ _ _ _ hr ▸ hx) _
      (hround _ _ _ _ hr) h)
  | inr z =>
    obtain ⟨rfl, rfl⟩ := gives_pure.mp h
    obtain rfl := hdone _ _ _ _ hr
    exact ⟨rfl, hr⟩

variable {g : Grammar} {n left : Node}

/-- No operator between operands makes a default. -/
theorem climb_default {maxRank : Nat} {command : Bool}
    (h : Gives (climb g maxRank command left) scope s n s') (hn : n.kind = .default) :
    n = left ∧ s' = s := by
  refine And.elim (fun hleft h => ?_) (repeatFrom_default (fun m s₁ y s₂ hround => ?_)
    (fun m s₁ y s₂ hround => ?_) h hn)
  · subst hleft
    simp only [gives_bind, gives_current] at h
    obtain ⟨_, _, ⟨rfl, rfl⟩, h⟩ := h
    refine ⟨rfl, ?_⟩
    split at h
    · exact (gives_pure.mp h).2.symm
    · simp only [gives_ite, gives_pure, gives_bind, gives_advance, gives_reject, reduceCtorEq,
        false_and, and_false, exists_false, or_false] at h
      exact h.2.2.symm
  · simp only [gives_bind, gives_current] at hround
    obtain ⟨_, _, ⟨rfl, rfl⟩, hround⟩ := hround
    split at hround
    · cases (gives_pure.mp hround).1
    · simp only [gives_ite, gives_pure, gives_bind, gives_advance, gives_reject, reduceCtorEq,
        false_and, and_false, false_or, Sum.inl.injEq] at hround
      obtain ⟨-, _, _, -, ⟨-, -, _, _, -, rfl, -⟩ | ⟨-, _, _, -, rfl, -⟩⟩ := hround
      all_goals
        intro hkind
        cases hkind
  · simp only [gives_bind, gives_current] at hround
    obtain ⟨_, _, ⟨rfl, rfl⟩, hround⟩ := hround
    split at hround
    · exact Sum.inr.inj (gives_pure.mp hround).1
    · simp only [gives_ite, gives_pure, gives_bind, gives_advance, gives_reject, reduceCtorEq,
        false_and, and_false, exists_false, or_false, Sum.inr.injEq] at hround
      exact hround.2.1

/-- Nor does an index, a method call or a selector, none of which follows one. -/
theorem postfixTail_default (h : Gives (postfixTail g left) scope s n s') (hn : n.kind = .default) :
    n = left ∧ s' = s ∧ ¬ (s.current.kind = .symbol .leftBracket ∧ s.touches) ∧
      s.current.kind ≠ .symbol .dot ∧ s.current.kind ≠ .symbol .question := by
  refine And.elim (fun hleft h => ?_) (repeatFrom_default (fun m s₁ y s₂ hround => ?_)
    (fun m s₁ y s₂ hround => ?_) h hn)
  · subst hleft
    simp only [gives_bind, gives_atTouching, gives_atSymbol, gives_ite, gives_map, gives_pure,
      reduceCtorEq, and_false, exists_false, false_or] at h
    obtain ⟨_, _, ⟨rfl, rfl⟩, hbracket, _, _, ⟨rfl, rfl⟩, hdot, _, _, ⟨rfl, rfl⟩, hquestion, -,
      rfl⟩ := h
    exact ⟨rfl, rfl, by simpa using hbracket, by simpa using hdot, by simpa using hquestion⟩
  · simp only [gives_bind, gives_atTouching, gives_atSymbol, gives_ite, gives_map, gives_pure,
      reduceCtorEq, and_false, false_and, or_false, Sum.inl.injEq] at hround
    obtain ⟨_, _, -, ⟨-, _, hindex, rfl⟩ | ⟨-, _, _, -, hround⟩⟩ := hround
    · simp only [indexAccess, gives_bind, gives_pure] at hindex
      obtain ⟨_, _, -, rfl, -⟩ := hindex
      intro hkind
      cases hkind
    rcases hround with ⟨-, _, hcall, rfl⟩ | ⟨-, _, _, -, -, _, hselector, rfl⟩
    · simp only [methodCall, ite_bind, gives_bind] at hcall
      obtain ⟨_, _, -, t, _, -, hcall⟩ := hcall
      rcases gives_ite.mp hcall with ⟨-, hcall⟩ | ⟨-, hcall⟩
      · exact absurd hcall gives_unexpected
      simp only [gives_bind, gives_pure] at hcall
      obtain ⟨_, _, -, _, _, -, _, _, -, _, _, -, rfl, -⟩ := hcall
      intro hkind
      cases hkind
    · simp only [selector, gives_bind, gives_pure] at hselector
      obtain ⟨_, _, -, _, _, -, _, _, -, _, _, -, rfl, -⟩ := hselector
      intro hkind
      cases hkind
  · simp only [gives_bind, gives_atTouching, gives_atSymbol, gives_ite, gives_map, gives_pure,
      reduceCtorEq, and_false, exists_false, false_or, Sum.inr.injEq] at hround
    obtain ⟨_, _, -, -, _, _, -, -, _, _, -, -, rfl, -⟩ := hround
    rfl

/-- A default that is read for a value is the next token, and what follows does not go on with
it. -/
theorem value_default {n : Nat} {key : Node} (hs : s.Closed)
    (h : Gives (grammar n).value scope s key s') (hk : key.kind = .default) :
    s.current.kind = .keyword .default ∧ s' = s.tail ∧ s.current.EndsValue s'.current := by
  obtain ⟨⟨ts, hreads, hd⟩, -, hstops⟩ := (grammar_sound n).binary hs h
  obtain ⟨t, rfl, ht, -⟩ := hd.eq_default hk
  obtain rfl : t = s.current := by simpa using hreads.head? (by simp)
  cases n with
  | zero => exact absurd h gives_fail
  | succ n =>
    obtain ⟨m, s₁, hunary, hclimb⟩ := gives_bind.mp h
    obtain ⟨rfl, rfl⟩ := climb_default hclimb hk
    have hoperand : Gives (operand (grammar n) .value) scope s key s' := by
      simp only [unary, gives_bind, gives_current] at hunary
      obtain ⟨_, _, ⟨rfl, rfl⟩, hunary⟩ := hunary
      rwa [ht] at hunary
    obtain ⟨d, s₂, hprimary, htail⟩ := gives_bind.mp hoperand
    obtain ⟨rfl, rfl, hbracket, hdot, hquestion⟩ := postfixTail_default htail hk
    have hs' : s' = s.tail := by
      have hliteral : s.current.literal? (grammar n) = some (.ok s.current.defaultNode) := by
        unfold Token.literal?
        rw [ht]
      simp only [primary, gives_bind, gives_current] at hprimary
      obtain ⟨_, _, ⟨rfl, rfl⟩, hprimary⟩ := hprimary
      simp only [hliteral, gives_bind, gives_advance, gives_lift] at hprimary
      obtain ⟨_, _, ⟨-, rfl⟩, -, rfl⟩ := hprimary
      rfl
    subst hs'
    refine ⟨ht, rfl, fun hnext => hbracket ⟨hnext.1, ?_⟩, hdot, hquestion, fun o ho => ?_⟩
    · have hrest : s.rest = s.current :: s.tail.rest := hreads.rest
      simp [TokenStream.touches_tail hrest, hnext.2]
    · refine hstops o ho fun heq => ?_
      cases heq

end Parse

/-! ## What may be reported -/

variable {tokens : List Token}

namespace Token

/-- The fragments within a token of a passage are those of the source. -/
theorem Passage.deepFragments_subset {passage : List Token} (h : Passage tokens passage) {t : Token}
    (ht : t ∈ passage) : t.deepFragments ⊆ Token.deepAll tokens := by
  cases h with
  | source => exact fun f hf => Token.mem_deepAll.mpr ⟨t, ht, hf⟩
  | @interpolation f ts hf hp =>
    obtain ⟨u, hu, hf⟩ := Token.mem_deepAll.mp hf
    have ht : t ∈ f.tokens := by rwa [Fragment.tokens, hp]
    intro g hg
    exact Token.mem_deepAll.mpr
      ⟨u, hu, Token.deep_trans hf (Fragment.deepFragments_subset ht hg)⟩

/-- Every passage ends with an end of input, and the tokens before it are closed. -/
def ClosedPassages (tokens : List Token) : Prop :=
  ∀ passage, Passage tokens passage →
    ∃ inner p, passage = inner ++ [Token.endAt p] ∧ ∀ t ∈ inner, t.Closed

theorem closedPassages {inner : List Token} {p : Position} (h : ∀ t ∈ inner, t.Closed) :
    ClosedPassages (inner ++ [Token.endAt p]) := by
  intro passage hpassage
  cases hpassage with
  | source => exact ⟨inner, p, rfl, h⟩
  | @interpolation f ts hf hp =>
    obtain ⟨t, ht, hf⟩ := Token.mem_deepAll.mp hf
    rcases List.mem_append.mp ht with ht | ht
    · obtain ⟨us, rfl, hus⟩ := (h t ht).inner (Token.deep_trans hf) hp
      exact ⟨us, _, rfl, hus⟩
    · rw [List.mem_singleton.mp ht] at hf
      cases hf

end Token

namespace TokenStream

/-- The stream is closed, and it is what is left of a passage. -/
structure Within (tokens : List Token) (s : TokenStream) : Prop where
  closed : s.Closed
  passage : ∃ passage, Token.Passage tokens passage ∧ s.rest ++ [s.last] <:+ passage

theorem Within.reads {s s' : TokenStream} {ts : List Token} (h : s.Within tokens)
    (hr : s.Reads ts s') : s'.Within tokens := by
  obtain ⟨passage, hpassage, hsuffix⟩ := h.passage
  refine ⟨hr.closed h.closed, passage, hpassage, List.IsSuffix.trans ⟨ts, ?_⟩ hsuffix⟩
  rw [hr.rest, hr.last, List.append_assoc]

theorem Within.tail {s : TokenStream} (h : s.Within tokens) : s.tail.Within tokens := by
  by_cases hk : s.current.kind = .endOfInput
  · have hnil := h.closed.rest_eq_nil hk
    have htail : s.tail = s := by rw [TokenStream.tail, hnil]
    rwa [htail]
  · exact h.reads (h.closed.reads_tail hk)

theorem current_mem (s : TokenStream) : s.current ∈ s.rest ++ [s.last] := by
  unfold current
  cases s.rest <;> simp

theorem second_mem (s : TokenStream) : s.second ∈ s.rest ++ [s.last] := by
  unfold second
  rcases s.rest with _ | ⟨t, _ | ⟨u, us⟩⟩ <;> simp

/-- The tokens of a closed passage make a stream of it. -/
theorem within_ofTokens {passage : List Token} (hclosed : Token.ClosedPassages tokens)
    (h : Token.Passage tokens passage) : (ofTokens passage).Within tokens := by
  obtain ⟨inner, p, rfl, hinner⟩ := hclosed passage h
  exact ⟨ofTokens_closed hinner, _, h, by simp [ofTokens]⟩

end TokenStream

/-- The refusal points at a second default, and says what holds it. -/
def SyntaxError.AtSecondDefault (tokens : List Token) (e : SyntaxError) : Prop :=
  ∃ holder t, e = ⟨.duplicateDefault holder, t.span⟩ ∧ Token.SecondDefault tokens holder t

/-- A token is reported for a second default only where it is one. -/
def Blame.defaults (tokens : List Token) (hclosed : Token.ClosedPassages tokens) : Blame where
  streams := TokenStream.Within tokens
  tokens t := ∃ passage, Token.Passage tokens passage ∧ t ∈ passage
  refusals e := e.kind = .duplicateDefault → e.AtSecondDefault tokens
  current h := by
    obtain ⟨passage, hpassage, hsuffix⟩ := h.passage
    exact ⟨passage, hpassage, hsuffix.subset (TokenStream.current_mem _)⟩
  second h := by
    obtain ⟨passage, hpassage, hsuffix⟩ := h.passage
    exact ⟨passage, hpassage, hsuffix.subset (TokenStream.second_mem _)⟩
  tail := TokenStream.Within.tail
  inner := by
    rintro t f ts ⟨passage, hpassage, ht⟩ hdeep hp
    have hf := hpassage.deepFragments_subset ht (hdeep f.self_mem_deep)
    exact TokenStream.within_ofTokens hclosed (.interpolation hf hp)
  refuses := fun _ hne hk => absurd hk hne

namespace Parse

variable {hclosed : Token.ClosedPassages tokens} {scope : Scope} {s : TokenStream}
  {e : SyntaxError}

/-- A default that is read for a value after a run that holds one is a second default. -/
theorem secondDefault_of_value {n : Nat} {s₁ s₂ : TokenStream} {key : Node}
    {holder : DefaultHolder} {before : List Token} (hs : s.Within tokens)
    (hreads : s.Reads before s₁) (hbefore : HoldsDefault holder before)
    (h : Gives (grammar n).value scope s₁ key s₂) (hk : key.kind = .default) :
    Token.SecondDefault tokens holder s₁.current := by
  have hs₁ := hs.reads hreads
  obtain ⟨hdefault, rfl, hends⟩ := value_default hs₁.closed h hk
  obtain ⟨passage, hpassage, hsuffix⟩ := hs.passage
  refine ⟨passage, before, _, hpassage, ?_, hbefore, hdefault, hends⟩
  have hread := hs₁.closed.reads_tail (by simp [hdefault])
  obtain ⟨more, hmore⟩ : ∃ more, s₁.tail.rest ++ [s₁.tail.last] = s₁.tail.current :: more := by
    unfold TokenStream.current
    cases s₁.tail.rest <;> simp
  refine List.IsInfix.trans (List.IsPrefix.isInfix ⟨more, ?_⟩) hsuffix.isInfix
  calc before ++ [s₁.current, s₁.tail.current] ++ more
      = before ++ ([s₁.current] ++ (s₁.tail.current :: more)) := by simp
    _ = before ++ ([s₁.current] ++ s₁.tail.rest) ++ [s₁.tail.last] := by simp [← hmore]
    _ = s.rest ++ [s.last] := by rw [← hread.rest, ← hreads.rest, hread.last, hreads.last]

/-- Where a run up to the stream `s` holds a default. -/
def AfterDefault (tokens : List Token) (holder : DefaultHolder) (s : TokenStream) : Prop :=
  ∃ (s₀ : TokenStream) (before : List Token),
    s₀.Within tokens ∧ s₀.Reads before s ∧ HoldsDefault holder before

/-! ## Selectors -/

theorem selectorItem_defaults {n : Nat} {seen : Bool}
    (hg : (grammar n).Reports (.defaults tokens hclosed)) (hs : s.Within tokens)
    (hseen : seen → AfterDefault tokens .selector s)
    (h : Rejects (selectorItem (grammar n) seen) scope s e) (he : e.kind = .duplicateDefault) :
    e.AtSecondDefault tokens := by
  simp only [selectorItem, rejects_bind, rejects_current, gives_current, false_or, rejects_ite,
    rejects_reject, rejects_pure, and_false, exists_false, or_false, gives_expectSymbol] at h
  obtain ⟨_, _, ⟨rfl, rfl⟩, h | ⟨key, s₁, hkey, h⟩⟩ := h
  · exact hg.value.rejects hs h he
  rcases h with ⟨hdefault, rfl⟩ | ⟨-, harrow | ⟨_, _, ⟨harrow, -, rfl⟩, hvalue⟩⟩
  · simp only [Bool.and_eq_true, decide_eq_true_eq] at hdefault
    obtain ⟨s₀, before, hs₀, hreads, hbefore⟩ := hseen hdefault.2
    exact ⟨_, _, rfl, secondDefault_of_value hs₀ hreads hbefore hkey hdefault.1⟩
  · exact absurd he (rejects_expectSymbol harrow)
  · obtain ⟨ks, hreads, -⟩ := (grammar_sound n).value _ _ _ hs.closed hkey
    exact hg.value.rejects (hs.reads hreads).tail hvalue he

/-- A selector reports a default for the second only where it is one. -/
theorem selector_defaults {n : Nat} (hg : (grammar n).Reports (.defaults tokens hclosed))
    (subject : Node) (hs : s.Within tokens) (hk : s.current.kind = .symbol .question) :
    PointsAt (.defaults tokens hclosed) (selector (grammar n) subject) (fun _ => True) scope s := by
  refine pointsAt_of (fun m s' h => ?_) fun e h he => ?_
  · obtain ⟨choices, hreads, -⟩ := selector_choices (grammar_sound n) hs.closed hk h
    exact hs.reads hreads
  simp only [selector, rejects_bind, rejects_advanceLeaf, gives_advanceLeaf, false_or,
    rejects_withBraceBlocks, gives_expectSymbol, rejects_pure, and_false, exists_false,
    or_false] at h
  obtain ⟨_, _, ⟨rfl, rfl⟩, hopener | ⟨_, _, ⟨ho, rfl, rfl⟩, hlist | ⟨_, _, -, hcloser⟩⟩⟩ := h
  · exact absurd he (rejects_expectSymbol hopener)
  · obtain ⟨items, commas, st, s₁, hrounds, hitem⟩ := commaListWith_rejects
      (P := fun seen ts n seen' => Derives .selectorItem ts n ∧
        seen.toNat + n.defaultCount = seen'.toNat)
      (selectorItem_reads (grammar_sound n)) hs.tail.tail.closed hlist
    have hreads := (hs.closed.reads_tail (by simp [hk])).trans
      ((hs.tail.closed.reads_tail (by simp [ho])).trans hrounds.reads)
    refine selectorItem_defaults hg (hs.reads hreads) (fun hseen => ⟨s, _, hs, hreads, ?_⟩) hitem he
    have hcount := hrounds.trace.sum_eq Node.defaultCount Bool.toNat fun _ _ _ _ h => h.2
    refine .selector s.current s.tail.current ⟨items, commas⟩ hk ho hrounds.paired hrounds.kinds
      (hrounds.trace.forall_mem fun _ _ _ _ h => h.1) ?_
    rw [hseen] at hcount
    simpa [Series.nodes, Function.comp_def] using hcount
  · exact absurd he (rejects_expectSymbol hcloser)

/-! ## Case statements -/

theorem caseOption_defaults {n : Nat} {seen : Bool} {o : CaseOptions}
    (hg : (grammar n).Reports (.defaults tokens hclosed)) (hs : s.Within tokens)
    (hseen : seen || o.default.isSome → AfterDefault tokens .caseStatement s)
    (h : Rejects (caseOption (grammar n) seen o) scope s e) (he : e.kind = .duplicateDefault) :
    e.AtSecondDefault tokens := by
  simp only [caseOption, rejects_bind, rejects_current, gives_current, false_or, rejects_ite,
    rejects_reject, rejects_pure, and_false, or_false] at h
  obtain ⟨_, _, ⟨rfl, rfl⟩, h | ⟨option, s₁, hoption, hdefault, htwice, rfl⟩⟩ := h
  · exact hg.value.rejects hs h he
  · obtain ⟨s₀, before, hs₀, hreads, hbefore⟩ := hseen htwice
    exact ⟨_, _, rfl, secondDefault_of_value hs₀ hreads hbefore hoption hdefault⟩

/-- A case statement has been read from its keyword, at `s₀`, up to the stream `s`, where an arm
begins.  The arms hold a default just if the flag is set. -/
structure ArmsRead (s₀ : TokenStream) (seen : Bool) (s : TokenStream) : Prop where
  keyword : s₀.current.kind = .keyword .case
  reads : ∃ (ss : List Token) (subject : Node) (opener : Token) (arms : List Segment),
    Derives (.expression false) ss subject ∧ opener.kind = .symbol .leftBrace ∧
    (∀ i ∈ arms, Derives .caseArm i.1 i.2) ∧
    (arms.map fun i => i.2.defaultCount).sum = seen.toNat ∧
    s₀.Reads (s₀.current :: ss ++ opener :: arms.flatMap Prod.fst) s

/-- Options after some arms, if there is one default among them all. -/
theorem ArmsRead.afterDefault {s₀ s₁ : TokenStream} {seen : Bool} {options : Series}
    (h : ArmsRead s₀ seen s) (hs₀ : s₀.Within tokens) (hreads : s.Reads options.tokens s₁)
    (hopen : options.Open) (hcommas : ∀ t ∈ options.seps, t.kind = .symbol .comma)
    (hd : ∀ i ∈ options.items, Derives (.expression false) i.1 i.2)
    (hranks : ∀ i ∈ options.items, i.2.rank ≤ Operator.valueRank)
    (hcount : seen.toNat + options.nodes.countP (fun n => n.kind = .default) = 1) :
    AfterDefault tokens .caseStatement s₁ := by
  obtain ⟨ss, subject, opener, arms, hsubject, hopener, harms, hseen, hr⟩ := h.reads
  exact ⟨s₀, _, hs₀, hr.trans hreads, .caseStatement _ opener arms options h.keyword hsubject
    hopener harms hopen hcommas hd hranks (hseen ▸ hcount)⟩

theorem caseOptions_defaults {n : Nat} {seen : Bool} {s₀ : TokenStream}
    (hg : (grammar n).Reports (.defaults tokens hclosed)) (hs₀ : s₀.Within tokens)
    (harms : ArmsRead s₀ seen s) (hs : s.Within tokens)
    (h : Rejects (caseOptions (grammar n) seen) scope s e) (he : e.kind = .duplicateDefault) :
    e.AtSecondDefault tokens := by
  rcases rejects_bind.mp h with h | ⟨first, s₁, hfirst, h⟩
  · refine caseOption_defaults hg hs (fun hseen => ?_) h he
    have hseen : seen = true := by simpa using hseen
    have hnone : s.Reads (Series.tokens ⟨[], []⟩) s := .refl s
    exact harms.afterDefault hs₀ hnone rfl (List.forall_mem_nil _) (List.forall_mem_nil _)
      (List.forall_mem_nil _) (by simp [hseen, Series.nodes])
  obtain ⟨i, hi⟩ := caseOption_reads (grammar_sound n) hs.closed hfirst
  have h : Rejects (repeatFrom (optionRound (grammar n) seen) first) scope s₁ e := h
  obtain ⟨o, s₂, ⟨l, hl⟩, h⟩ := repeatFrom_rejects (fun o s₁ => ∃ l, OptionsRead s seen o l s₁)
    (fun _ _ _ _ => OptionsRead.round (grammar_sound n) hs.closed) ⟨_, hi.first⟩ h
  simp only [optionRound, rejects_bind, rejects_atSymbol, gives_atSymbol, false_or, rejects_ite,
    rejects_advanceLeaf, gives_advanceLeaf, rejects_map, rejects_pure, and_false, or_false] at h
  obtain ⟨_, _, ⟨rfl, rfl⟩, hcomma, _, _, ⟨rfl, rfl⟩, h⟩ := h
  have hcomma : s₂.current.kind = .symbol .comma := by simpa using hcomma
  -- One more comma, after which the next option comes.
  have hs₂ := hs.reads hl.reads
  have hreads := hl.reads.trans (hs₂.closed.reads_tail (by simp [hcomma]))
  rw [← Series.tokens_sep hl.tight] at hreads
  refine caseOption_defaults hg hs₂.tail (fun hseen => ?_) h he
  refine harms.afterDefault hs₀ hreads (by simpa [Series.Open, Series.Tight] using hl.tight) ?_
    hl.derives hl.ranks ?_
  · intro t ht
    rcases List.mem_append.mp ht with ht | ht
    · exact hl.kinds t ht
    · rw [List.mem_singleton.mp ht, hcomma]
  · rw [show (Series.mk l.items (l.seps ++ [s₂.current])).nodes = l.nodes from rfl, hl.count, hseen]
    rfl

theorem caseArm_defaults {n : Nat} {seen : Bool} {s₀ : TokenStream}
    (hg : (grammar n).Blames (.defaults tokens hclosed)) (hs₀ : s₀.Within tokens)
    (harms : ArmsRead s₀ seen s) (hs : s.Within tokens)
    (h : Rejects (caseArm (grammar n) seen) scope s e) (he : e.kind = .duplicateDefault) :
    e.AtSecondDefault tokens := by
  simp only [caseArm, rejects_bind, rejects_current, gives_current, false_or, gives_expectSymbol,
    rejects_pure, and_false, exists_false, or_false] at h
  obtain ⟨_, _, ⟨rfl, rfl⟩, h | ⟨o, s₁, ho, hcolon | ⟨_, _, ⟨hk, rfl, rfl⟩, hbody⟩⟩⟩ := h
  · exact caseOptions_defaults hg.toReports hs₀ harms hs h he
  · exact absurd he (rejects_expectSymbol hcolon)
  · obtain ⟨l, hl⟩ := caseOptions_reads (grammar_sound n) hs.closed ho
    exact (body_blames hg).rejects (hs.reads hl.reads).tail hbody he

/-- A case statement reports a default for the second only where it is one. -/
theorem caseStatement_defaults {n : Nat} (hg : (grammar n).Blames (.defaults tokens hclosed)) :
    CaseBlames (.defaults tokens hclosed) (grammar n) := by
  intro scope s hs hk
  have hs : s.Within tokens := hs
  refine pointsAt_of (fun m s' h => ?_) fun e h he => ?_
  · obtain ⟨ts, hreads, -⟩ := caseStatement_yields (grammar_sound n) hs.closed hk h
    exact hs.reads hreads
  simp only [caseStatement, rejects_bind, rejects_advance, gives_advance, false_or,
    rejects_withBraceBlocks, gives_withBraceBlocks, gives_expectSymbol, rejects_pure, and_false,
    exists_false, or_false] at h
  obtain ⟨_, _, ⟨rfl, rfl⟩, h | ⟨subject, s₁, hsubject, h⟩⟩ := h
  · exact (binaryIn_blames hg _ _ _).rejects hs.tail h he
  obtain ⟨⟨ss, hreads, hd⟩, -⟩ := binaryIn_yields (grammar_sound n) hs.tail.closed hsubject
  have hreads := (hs.closed.reads_tail (by simp [hk])).trans hreads
  have hs₁ := hs.reads hreads
  rcases h with hopener | ⟨_, _, ⟨ho, rfl, rfl⟩, h | ⟨_, _, -, hcloser⟩⟩
  · exact absurd he (rejects_expectSymbol hopener)
  · obtain ⟨arms, st, s₂, hrounds, harm⟩ := untilClosed_rejects
      (P := fun seen ts n seen' => Derives .caseArm ts n ∧
        seen.toNat + n.defaultCount = seen'.toNat)
      (fun seen s r s' hs _ h => caseArm_reads (grammar_sound n) seen s r s' hs h)
      hs₁.tail.closed h
    have hreads := hreads.trans ((hs₁.closed.reads_tail (by simp [ho])).trans hrounds.reads)
    refine caseArm_defaults hg hs ⟨hk, ss, subject, s₁.current, arms, hd, ho,
      hrounds.trace.forall_mem fun _ _ _ _ h => h.1, ?_, by simpa using hreads⟩ (hs.reads hreads)
      harm he
    simpa using hrounds.trace.sum_eq Node.defaultCount Bool.toNat fun _ _ _ _ h => h.2
  · exact absurd he (rejects_expectSymbol hcloser)

/-- Tokens that are refused for a second default hold one. -/
theorem tokens_secondDefault (hclosed : Token.ClosedPassages tokens)
    (h : Parse.tokens tokens = .error (.rejected e)) (he : e.kind = .duplicateDefault) :
    e.AtSecondDefault tokens := by
  have hd : DefaultsBlame (.defaults tokens hclosed) :=
    ⟨fun _ hg subject _ _ hs hk => selector_defaults hg subject hs hk,
      fun _ hg => caseStatement_defaults hg⟩
  exact tokens_blames hd (TokenStream.within_ofTokens hclosed .source) h he

end Parse

/-- In a parsed tree every selector and every case statement has at most one default, at any depth.
A source that is refused for a second default has one: the refusal points at a `default` that is a
key or an option by itself, and that comes after just one other in the same selector or case
statement. -/
theorem Node.parse_defaults (source : Text) :
    (∀ tree, Node.parse source = .ok tree →
      ∀ n ∈ tree.preorder, (n.alternatives.map Node.defaultCount).sum ≤ 1) ∧
    ∀ e, Node.parse source = .error (.rejected e) → e.kind = .duplicateDefault →
      ∃ tokens comments, Token.scan source = .ok (tokens, comments) ∧
        e.AtSecondDefault tokens := by
  refine ⟨fun tree h n hn => ?_, fun e h he => ?_⟩
  · obtain ⟨tokens, comments, statements, hparsed⟩ := Node.parse_parsed h
    rcases hparsed.constituent.preorder n hn with hn | ⟨l, rfl⟩
    · exact hn.alternatives
    · exact Nat.zero_le 1
  · obtain hscan | ⟨⟨tokens, comments⟩, hscan, h⟩ := bind_eq_error.mp h
    · have hlexical : e.kind.isLexical := (Token.scan_error hscan).1
      rw [he] at hlexical
      cases hlexical
    obtain h | ⟨_, _, h⟩ := bind_eq_error.mp h
    case inr => cases h
    obtain ⟨xs, hl⟩ := Token.scan_laidOut hscan
    obtain ⟨p, htokens, hkinds⟩ := hl.ends
    have hclosed : Token.ClosedPassages tokens := by
      rw [htokens]
      exact Token.closedPassages fun t ht =>
        (hl.sound t (List.dropLast_subset _ ht)).closed (hkinds t ht)
    exact ⟨tokens, comments, hscan, tokens_secondDefault hclosed h he⟩

set_option maxRecDepth 1000 in
/-- The default of a case statement holds a selector with a default of its own, and both are read.
Within an interpolation a selector is refused for the second of two. -/
theorem Node.parse_defaults_nested :
    (∃ tree, Node.parse
        (Text.ofString "case 1 \x7b default: \x7b 2 ? \x7b default => 3 \x7d \x7d \x7d") =
        .ok tree ∧ tree.preorder.length = 21 ∧
      ∀ n ∈ tree.preorder, (n.alternatives.map Node.defaultCount).sum ≤ 1) ∧
    Node.parse (Text.ofString "\"$\x7bx?\x7bdefault=>1,default=>2\x7d\x7d\"") =
        .error (.rejected ⟨.duplicateDefault .selector, ⟨17, 24, 1, 18⟩⟩) ∧
      ∃ tokens comments,
        Token.scan (Text.ofString "\"$\x7bx?\x7bdefault=>1,default=>2\x7d\x7d\"") =
          .ok (tokens, comments) ∧
        SyntaxError.AtSecondDefault tokens ⟨.duplicateDefault .selector, ⟨17, 24, 1, 18⟩⟩ := by
  have hrun : (Node.parse
      (Text.ofString "case 1 \x7b default: \x7b 2 ? \x7b default => 3 \x7d \x7d \x7d")).toOption.map
        (fun tree => tree.preorder.length) = some 21 := by cbv
  obtain ⟨tree, hparse, hlength⟩ := exists_ok_of_map hrun
  have hrefused : Node.parse (Text.ofString "\"$\x7bx?\x7bdefault=>1,default=>2\x7d\x7d\"") =
      .error (.rejected ⟨.duplicateDefault .selector, ⟨17, 24, 1, 18⟩⟩) := by cbv
  exact ⟨⟨tree, hparse, hlength, (Node.parse_defaults _).1 tree hparse⟩, hrefused,
    (Node.parse_defaults _).2 _ hrefused rfl⟩

end ManifestTree
