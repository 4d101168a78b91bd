import ManifestTree.Proofs.Reading

/-!
# Parsers that settle

`Parser.Settles N p scope s Q` says that the parser `p`, started on the stream `s`, either fails as
a parser of tokens may or answers so that `Q` holds of the answer and of what is left.  It follows
the steps of a parser from the last to the first, so a construct is taken apart by rewriting, and
what remains to be shown is about the constructs within it.  A loop settles because every round
that does not end it reads a token, which is why its bound is never met.
-/

namespace ManifestTree

/-- Problems of this sort are met when a source is scanned, and the others when its tokens are
parsed. -/
def ProblemKind.isLexical : ProblemKind → Bool
  | .lexical | .malformedTag | .unterminatedHeredoc => true
  | _ => false

/-- How a parser of tokens may fail: the source is refused for a problem that is not lexical, or an
integer, which is of the kind `N`, has no value. -/
def Failure.OfParsing (N : Text → Prop) : Failure → Prop
  | .rejected e => e.kind.isLexical = false
  | .octalDigit text => N text ∧ Literal.integer? text = none
  | .digitSign _ | .exhausted => False

/-! ## Integers at any depth -/

/-- The token and the tokens within its interpolations, at any depth. -/
def Token.deepTokens (t : Token) : List Token := t :: t.deepFragments.flatMap Fragment.tokens

/-- The integers within the token, and the token itself if it is one, are of the kind `N`. -/
def Token.Numbered (N : Text → Prop) (t : Token) : Prop :=
  ∀ u ∈ t.deepTokens, u.kind = .integer → N u.text

variable {N : Text → Prop}

/-- What stands in the interpolations of a token is within the token. -/
theorem Token.deepTokens_subset {t u : Token} {f : Fragment} (hf : f.deep ⊆ t.deepFragments)
    (hu : u ∈ f.tokens) : u.deepTokens ⊆ t.deepTokens := by
  intro v hv
  refine List.mem_cons_of_mem _ (List.mem_flatMap.mpr ?_)
  rcases List.mem_cons.mp hv with rfl | hv
  · exact ⟨f, hf f.self_mem_deep, hu⟩
  · obtain ⟨g, hg, hv⟩ := List.mem_flatMap.mp hv
    exact ⟨g, hf (Fragment.deepFragments_subset hu hg), hv⟩

/-- What stands in the interpolations of a token is numbered as the token is. -/
theorem Token.Numbered.inner {t u : Token} (ht : t.Numbered N) {f : Fragment}
    (hf : f.deep ⊆ t.deepFragments) (hu : u ∈ f.tokens) : u.Numbered N :=
  fun v hv => ht v (Token.deepTokens_subset hf hu hv)

/-! ## Counts of tokens -/

theorem Token.countAll_append (ts us : List Token) :
    Token.countAll (ts ++ us) = Token.countAll ts + Token.countAll us := by
  induction ts with
  | nil => simp [Token.countAll]
  | cons t ts ih => simp [Token.countAll, ih, Nat.add_assoc]

theorem Token.count_pos (t : Token) : 0 < t.count := by
  obtain ⟨_, _, _, d⟩ := t
  exact Nat.succ_pos _

theorem Token.count_le_countAll {t : Token} {ts : List Token} (ht : t ∈ ts) :
    t.count ≤ Token.countAll ts := by
  obtain ⟨before, after, rfl⟩ := List.append_of_mem ht
  rw [Token.countAll_append, Token.countAll]
  omega

theorem Fragment.count_le_countAll {f : Fragment} {fs : List Fragment} (hf : f ∈ fs) :
    f.count ≤ Fragment.countAll fs := by
  induction fs with
  | nil => simp at hf
  | cons g fs ih =>
    rw [Fragment.countAll]
    rcases List.mem_cons.mp hf with rfl | hf
    · omega
    · have := ih hf
      omega

/-- The tokens of an interpolation are counted in its fragment. -/
theorem Fragment.countAll_tokens (f : Fragment) : Token.countAll f.tokens = f.count := by
  obtain ⟨text, span, piece⟩ := f
  cases piece <;> rfl

/-- A fragment of a string is counted in its token, besides the token itself. -/
theorem Token.count_fragment {t : Token} {f : Fragment} (hf : f ∈ t.fragments) :
    f.count < t.count := by
  obtain ⟨kind, text, span, d⟩ := t
  cases d with
  | fragments fs => exact Nat.lt_succ_of_le (Fragment.count_le_countAll hf)
  | plain => simp [Token.fragments, Token.detail] at hf
  | heredoc tag body => simp [Token.fragments, Token.detail] at hf

/-- A fragment of a heredoc body is counted in its token, besides the token itself. -/
theorem Token.count_bodyFragment {t : Token} {b : HeredocBody} {f : Fragment} (hb : b ∈ t.body?)
    (hf : f ∈ b.fragments) : f.count < t.count := by
  obtain ⟨kind, text, span, d⟩ := t
  cases d with
  | heredoc tag body =>
    obtain rfl : body = some b := hb
    obtain ⟨_, fs, _, _, _, _⟩ := b
    exact Nat.lt_succ_of_le (Fragment.count_le_countAll hf)
  | plain => simp [Token.body?, Token.detail] at hb
  | fragments fs => simp [Token.body?, Token.detail] at hb

/-- What passes from a fragment to the fragments of its tokens holds at any depth. -/
theorem Fragment.forall_deep {P : Fragment → Prop}
    (hP : ∀ f, P f → ∀ t ∈ f.tokens,
      (∀ g ∈ t.fragments, P g) ∧ ∀ b ∈ t.body?, ∀ g ∈ b.fragments, P g)
    {f : Fragment} (hf : P f) : ∀ g ∈ f.deep, P g := by
  induction hn : f.count using Nat.strongRecOn generalizing f with
  | ind n ih =>
    intro g hg
    rcases Fragment.mem_deep.mp hg with rfl | ⟨t, ht, hg⟩
    · exact hf
    have hcount : t.count ≤ n := by
      have := Token.count_le_countAll ht
      rw [Fragment.countAll_tokens] at this
      omega
    obtain ⟨hfragments, hbodies⟩ := hP f hf t ht
    rcases Token.mem_deepFragments.mp hg with ⟨e, he, hg⟩ | ⟨b, hb, hg⟩
    · have := Token.count_fragment he
      exact ih e.count (by omega) (hfragments e he) rfl g hg
    · obtain ⟨e, he, hg⟩ := HeredocBody.mem_deepFragments.mp hg
      have := Token.count_bodyFragment hb he
      exact ih e.count (by omega) (hbodies b hb e he) rfl g hg

/-- What is within a fragment within a fragment is within that. -/
theorem Fragment.deep_trans {f g : Fragment} (hg : g ∈ f.deep) : g.deep ⊆ f.deep := by
  refine Fragment.forall_deep (P := fun h => h.deep ⊆ f.deep) (fun h hh t ht => ?_)
    (List.Subset.refl _) g hg
  have htoken := List.Subset.trans (Fragment.deepFragments_subset ht) hh
  exact ⟨fun e he => List.Subset.trans (Token.deep_subset he) htoken,
    fun b hb e he => List.Subset.trans (Token.body_deep_subset hb he) htoken⟩

/-- What is within a fragment within a token is within the token. -/
theorem Token.deep_trans {t : Token} {f : Fragment} (hf : f ∈ t.deepFragments) :
    f.deep ⊆ t.deepFragments := by
  rcases Token.mem_deepFragments.mp hf with ⟨e, he, hf⟩ | ⟨b, hb, hf⟩
  · exact List.Subset.trans (Fragment.deep_trans hf) (Token.deep_subset he)
  · obtain ⟨e, he, hf⟩ := HeredocBody.mem_deepFragments.mp hf
    exact List.Subset.trans (Fragment.deep_trans hf) (Token.body_deep_subset hb he)

/-! ## Ends of input -/

/-- An interpolation ends with an end of input and holds no other. -/
def Fragment.Terminated (f : Fragment) : Prop :=
  ∀ ts, f.piece = .interpolation ts →
    ∃ inner last, ts = inner ++ [last] ∧ last.kind = .endOfInput ∧
      ∀ t ∈ inner, t.kind ≠ .endOfInput

/-- The token is no end of input, and all interpolations within it are terminated. -/
def Token.Terminated (t : Token) : Prop :=
  t.kind ≠ .endOfInput ∧ ∀ f ∈ t.deepFragments, f.Terminated

theorem Token.Closed.terminated {t : Token} (ht : t.Closed) : t.Terminated := by
  refine ⟨ht.1, fun f hf ts hp => ?_⟩
  obtain ⟨inner, rfl, hk⟩ := (ht.2 f hf).ends ts hp
  exact ⟨inner, _, rfl, rfl, hk⟩

/-- The tokens before the end of input of an interpolation are terminated as well. -/
theorem Token.Terminated.inner {t : Token} (ht : t.Terminated) {f : Fragment} {ts : List Token}
    (hf : f.deep ⊆ t.deepFragments) (hp : f.piece = .interpolation ts) :
    ∃ inner last, ts = inner ++ [last] ∧ last.kind = .endOfInput ∧ ∀ u ∈ inner, u.Terminated := by
  obtain ⟨inner, last, rfl, hlast, hk⟩ := ht.2 f (hf f.self_mem_deep) ts hp
  refine ⟨inner, last, rfl, hlast, fun u hu => ⟨hk u hu, fun g hg => ht.2 g (hf ?_)⟩⟩
  have hu' : u ∈ f.tokens := by
    rw [Fragment.tokens, hp]
    exact List.mem_append_left _ hu
  exact Fragment.deepFragments_subset hu' hg

/-! ## How far a stream is read -/

namespace TokenStream

/-- The second stream is left after some tokens of the first, perhaps none. -/
def Reaches (s s' : TokenStream) : Prop := ∃ ts, s.Reads ts s'

/-- The second stream is left after one or more tokens of the first. -/
def Advances (s s' : TokenStream) : Prop := ∃ ts, ts ≠ [] ∧ s.Reads ts s'

/-- The stream ends with an end of input, and every token before it is terminated. -/
structure Terminated (s : TokenStream) : Prop where
  last : s.last.kind = .endOfInput
  rest : ∀ t ∈ s.rest, t.Terminated

variable {s s₁ s' : TokenStream} {n : Nat}

theorem Reaches.refl (s : TokenStream) : s.Reaches s := ⟨[], .refl s⟩

theorem Reaches.trans (h : s.Reaches s₁) (k : s₁.Reaches s') : s.Reaches s' := by
  obtain ⟨ts, h⟩ := h
  obtain ⟨us, k⟩ := k
  exact ⟨ts ++ us, h.trans k⟩

theorem Advances.reaches (h : s.Advances s') : s.Reaches s' := by
  obtain ⟨ts, -, h⟩ := h
  exact ⟨ts, h⟩

theorem Advances.trans (h : s.Advances s₁) (k : s₁.Reaches s') : s.Advances s' := by
  obtain ⟨ts, hts, h⟩ := h
  obtain ⟨us, k⟩ := k
  exact ⟨ts ++ us, List.append_ne_nil_of_left_ne_nil hts us, h.trans k⟩

theorem Reaches.advances (h : s.Reaches s₁) (k : s₁.Advances s') : s.Advances s' := by
  obtain ⟨ts, h⟩ := h
  obtain ⟨us, hus, k⟩ := k
  exact ⟨ts ++ us, List.append_ne_nil_of_right_ne_nil ts hus, h.trans k⟩

/-- An advance leaves fewer tokens. -/
theorem Advances.length_lt (h : s.Advances s') : s'.rest.length < s.rest.length := by
  obtain ⟨ts, hts, h⟩ := h
  rw [h.rest, List.length_append]
  have := List.length_pos_iff.mpr hts
  omega

theorem Terminated.reaches (hs : s.Terminated) (h : s.Reaches s') : s'.Terminated := by
  obtain ⟨ts, h⟩ := h
  exact ⟨h.last ▸ hs.last, fun t ht => hs.rest t (h.rest ▸ List.mem_append_right _ ht)⟩

/-- The stream is terminated, its integers are of the kind `N`, and its tokens stand for fewer than
`n` tokens. -/
structure Tidy (N : Text → Prop) (n : Nat) (s : TokenStream) : Prop where
  terminated : s.Terminated
  numbered : ∀ t ∈ s.rest, t.Numbered N
  size : Token.countAll s.rest < n

theorem Tidy.reaches (hs : s.Tidy N n) (h : s.Reaches s') : s'.Tidy N n := by
  have hterminated := hs.terminated.reaches h
  obtain ⟨ts, h⟩ := h
  have hsize := hs.size
  rw [h.rest, Token.countAll_append] at hsize
  exact ⟨hterminated, fun t ht => hs.numbered t (h.rest ▸ List.mem_append_right _ ht),
    by omega⟩

/-- Each token that is read lowers the bound. -/
theorem Tidy.advances (hs : s.Tidy N (n + 1)) (h : s.Advances s') : s'.Tidy N n := by
  have hs' := hs.reaches h.reaches
  obtain ⟨ts, hts, h⟩ := h
  obtain ⟨t, us, rfl⟩ := List.exists_cons_of_ne_nil hts
  have hsize := hs.size
  rw [h.rest, Token.countAll_append, Token.countAll] at hsize
  have := t.count_pos
  exact ⟨hs'.terminated, hs'.numbered, by omega⟩

theorem Tidy.succ (hs : s.Tidy N n) : s.Tidy N (n + 1) :=
  ⟨hs.terminated, hs.numbered, Nat.lt_succ_of_lt hs.size⟩

/-- A token that is no end of input is there to be read. -/
theorem Tidy.advances_tail (hs : s.Tidy N n) (hk : s.current.kind ≠ .endOfInput) :
    s.Advances s.tail :=
  ⟨[s.current], List.cons_ne_nil _ _, reads_tail hs.terminated.last hk⟩

/-- So is one that stands further on. -/
theorem Tidy.advances_past (hs : s.Tidy N n) (h : s.Reaches s₁)
    (hk : s₁.current.kind ≠ .endOfInput) : s.Advances s₁.tail :=
  h.advances ((hs.reaches h).advances_tail hk)

/-- The next token is as tidy as the stream. -/
theorem Tidy.current (hs : s.Tidy N (n + 1)) (hk : s.current.kind ≠ .endOfInput) :
    s.current.Terminated ∧ s.current.Numbered N ∧ s.current.count ≤ n := by
  have hmem : s.current ∈ s.rest := by
    rw [(reads_tail hs.terminated.last hk).rest]
    exact List.mem_cons_self
  have := hs.size
  have := Token.count_le_countAll hmem
  exact ⟨hs.terminated.rest _ hmem, hs.numbered _ hmem, by omega⟩

end TokenStream

/-! ## Settling -/

namespace Parser

variable {α β σ : Type} {scope : Scope} {s s' : TokenStream} {n : Nat}

/-- Started on the stream `s`, the parser fails as a parser of tokens may, or answers so that `Q`
holds of the answer and the stream left. -/
def Settles (N : Text → Prop) (p : Parser α) (scope : Scope) (s : TokenStream)
    (Q : α → TokenStream → Prop) : Prop :=
  match (p.run scope).run s with
  | .ok (a, s') => Q a s'
  | .error f => f.OfParsing N

/-- The parser settles, and where it answers it has read a token. -/
def Consumes (N : Text → Prop) (p : Parser α) (scope : Scope) (s : TokenStream) : Prop :=
  Settles N p scope s fun _ s' => s.Advances s'

variable {Q R : α → TokenStream → Prop}

theorem Settles.mono {p : Parser α} (h : Settles N p scope s Q) (hQ : ∀ a s', Q a s' → R a s') :
    Settles N p scope s R := by
  unfold Settles at h ⊢
  split at h
  · exact hQ _ _ h
  · exact h

@[simp] theorem settles_pure {a : α} : Settles N (pure a) scope s Q ↔ Q a s := Iff.rfl

@[simp] theorem settles_bind {p : Parser α} {f : α → Parser β} {Q : β → TokenStream → Prop} :
    Settles N (p >>= f) scope s Q ↔
      Settles N p scope s fun a s' => Settles N (f a) scope s' Q := by
  simp only [Settles, ReaderT.run_bind, StateT.run_bind]
  cases (p.run scope).run s <;> rfl

@[simp] theorem settles_map {p : Parser α} {f : α → β} {Q : β → TokenStream → Prop} :
    Settles N (f <$> p) scope s Q ↔ Settles N p scope s fun a s' => Q (f a) s' := by
  rw [map_eq_pure_bind, settles_bind]
  rfl

@[simp] theorem settles_ite {c : Prop} [Decidable c] {p q : Parser α} :
    Settles N (if c then p else q) scope s Q ↔
      (c → Settles N p scope s Q) ∧ (¬ c → Settles N q scope s Q) := by
  by_cases h : c <;> simp [h]

@[simp] theorem settles_fail {f : Failure} :
    Settles N (fail f : Parser α) scope s Q ↔ f.OfParsing N := Iff.rfl

@[simp] theorem settles_unexpected {t : Token} {wanted : Wanted} :
    Settles N (unexpected t wanted : Parser α) scope s Q := by
  show (unexpectedError t wanted).kind.isLexical = false
  unfold unexpectedError
  split_ifs <;> rfl

@[simp] theorem settles_reject {problem : Problem} {span : Span} :
    Settles N (liftM (ManifestTree.reject problem span : Except Failure α) : Parser α) scope s Q ↔
      problem.kind.isLexical = false := Iff.rfl

theorem settles_lift {e : Except Failure α} (hf : ∀ f, e = .error f → f.OfParsing N)
    (hQ : ∀ a, Q a s) : Settles N (liftM e : Parser α) scope s Q := by
  cases e with
  | error f => exact hf f rfl
  | ok a => exact hQ a

/-! ## Primitives -/

@[simp] theorem settles_get {Q : TokenStream → TokenStream → Prop} :
    Settles N get scope s Q ↔ Q s s := Iff.rfl

@[simp] theorem settles_read {Q : Scope → TokenStream → Prop} :
    Settles N read scope s Q ↔ Q scope s := Iff.rfl

@[simp] theorem settles_current {Q : Token → TokenStream → Prop} :
    Settles N current scope s Q ↔ Q s.current s := Iff.rfl

@[simp] theorem settles_second {Q : Token → TokenStream → Prop} :
    Settles N second scope s Q ↔ Q s.second s := Iff.rfl

@[simp] theorem settles_advance {Q : Token → TokenStream → Prop} :
    Settles N advance scope s Q ↔ Q s.current s.tail := Iff.rfl

@[simp] theorem settles_advanceLeaf {Q : Leaf → TokenStream → Prop} :
    Settles N advanceLeaf scope s Q ↔ Q s.current.leaf s.tail := Iff.rfl

@[simp] theorem settles_nextIs {kind : TokenKind} {Q : Bool → TokenStream → Prop} :
    Settles N (nextIs kind) scope s Q ↔ Q (decide (s.current.kind = kind)) s := Iff.rfl

@[simp] theorem settles_atSymbol {x : Symbol} {Q : Bool → TokenStream → Prop} :
    Settles N (atSymbol x) scope s Q ↔ Q (decide (s.current.kind = .symbol x)) s := Iff.rfl

@[simp] theorem settles_atTouching {x : Symbol} {Q : Bool → TokenStream → Prop} :
    Settles N (atTouching x) scope s Q ↔
      Q (decide (s.current.kind = .symbol x) && s.touches) s := Iff.rfl

@[simp] theorem settles_withBraceBlocks {p : Parser α} {allowed : Bool} :
    Settles N (withBraceBlocks allowed p) scope s Q ↔ Settles N p ⟨allowed⟩ s Q := Iff.rfl

@[simp] theorem settles_expectAny {kinds : List TokenKind} {Q : Token → TokenStream → Prop} :
    Settles N (expectAny kinds) scope s Q ↔
      (s.current.kind ∈ kinds → Q s.current s.tail) := by
  have herror : Failure.OfParsing N (.rejected (expectedError kinds s.current)) := by
    show (expectedError kinds s.current).kind.isLexical = false
    unfold expectedError
    split_ifs <;> rfl
  simp only [expectAny, settles_bind, settles_current, settles_ite, settles_advance, settles_fail,
    List.contains_iff_mem, herror, implies_true, and_true]

@[simp] theorem settles_expect {kind : TokenKind} {Q : Token → TokenStream → Prop} :
    Settles N (expect kind) scope s Q ↔ (s.current.kind = kind → Q s.current s.tail) := by
  simp [expect]

@[simp] theorem settles_expectSymbol {x : Symbol} {Q : Token → TokenStream → Prop} :
    Settles N (expectSymbol x) scope s Q ↔
      (s.current.kind = .symbol x → Q s.current s.tail) := settles_expect

/-- A run on a stream of its own fails as the parser does. -/
theorem Settles.runOn {p : Parser α} (h : Settles N p ⟨true⟩ s Q) {f : Failure}
    (hf : runOn p s = .error f) : f.OfParsing N := by
  unfold Settles at h
  unfold Parser.runOn at hf
  cases hr : (p.run ⟨true⟩).run s with
  | error e =>
    rw [hr] at h hf
    cases hf
    exact h
  | ok r =>
    rw [hr] at hf
    cases hf

/-! ## Loops -/

/-- A loop whose rounds consume a token unless they end it. -/
theorem iterate_settles {step : σ → Parser (σ ⊕ α)} {P : TokenStream → Prop}
    (hstep : ∀ x s, P s → Settles N (step x) scope s fun r s' =>
      match r with
      | .inl _ => s'.rest.length < s.rest.length ∧ P s'
      | .inr a => Q a s')
    (fuel : Nat) (hfuel : s.rest.length < fuel) (hs : P s) (x : σ) :
    Settles N (iterate step fuel x) scope s Q := by
  induction fuel generalizing x s with
  | zero => exact absurd hfuel (Nat.not_lt_zero _)
  | succ fuel ih =>
    simp only [iterate, settles_bind]
    refine (hstep x s hs).mono fun r s' hr => ?_
    cases r with
    | inl y => exact ih (by omega) hr.2 y
    | inr a => exact hr

/-- A loop whose rounds consume a token unless they end it. -/
theorem repeatFrom_settles {step : σ → Parser (σ ⊕ α)} (hs : s.Tidy N n)
    (hstep : ∀ x s, s.Tidy N n → Settles N (step x) scope s fun r s' =>
      match r with
      | .inl _ => s.Advances s'
      | .inr _ => s.Reaches s') (x : σ) :
    Settles N (repeatFrom step x) scope s fun _ s' => s.Reaches s' := by
  simp only [repeatFrom, settles_bind, settles_get]
  refine iterate_settles (P := fun s₁ => s.Reaches s₁) (fun y s₁ h => ?_) _
    (Nat.lt_succ_self _) (.refl s) x
  refine (hstep y s₁ (hs.reaches h)).mono fun r s' hr => ?_
  cases r with
  | inl z => exact ⟨hr.length_lt, h.trans hr.reaches⟩
  | inr a => exact h.trans hr

variable {closes : TokenKind → Bool}

theorem untilClosed_settles {item : σ → Parser (α × σ)}
    (hitem : ∀ x s, s.Tidy N n → closes s.current.kind = false → Consumes N (item x) scope s)
    (hs : s.Tidy N n) (x : σ) :
    Settles N (untilClosed closes item x) scope s fun _ s' => s.Reaches s' := by
  refine repeatFrom_settles hs (fun r s₁ hs₁ => ?_) _
  obtain ⟨items, y⟩ := r
  simp only [settles_bind, settles_current, settles_ite, settles_pure, Bool.not_eq_true]
  refine ⟨fun _ => .refl s₁, fun hk => ?_⟩
  exact hitem y s₁ hs₁ hk

theorem commaListWith_settles {item : σ → Parser (α × σ)}
    (hitem : ∀ x s, s.Tidy N n → Consumes N (item x) scope s) (hs : s.Tidy N n) (x : σ) :
    Settles N (commaListWith closes item x) scope s fun _ s' => s.Reaches s' := by
  refine repeatFrom_settles hs (fun r s₁ hs₁ => ?_) _
  obtain ⟨items, commas, y⟩ := r
  simp only [settles_bind, settles_current, settles_ite, settles_pure, settles_atSymbol,
    settles_advanceLeaf, decide_eq_true_eq]
  refine ⟨fun _ => .refl s₁, fun _ => (hitem y s₁ hs₁).mono fun _ s₂ h => ?_⟩
  refine ⟨fun hc => ?_, fun _ => h.reaches⟩
  have hs₂ := hs₁.reaches h.reaches
  exact h.trans (hs₂.advances_tail (by simp [hc])).reaches

theorem commaList_settles {item : Parser α} (hitem : ∀ s, s.Tidy N n → Consumes N item scope s)
    (hs : s.Tidy N n) :
    Settles N (commaList closes item) scope s fun _ s' => s.Reaches s' := by
  refine commaListWith_settles (fun _ s₁ hs₁ => ?_) hs ()
  unfold Consumes
  simp only [settles_bind, settles_pure]
  exact hitem s₁ hs₁

theorem commaSeparated_settles {item : Parser α}
    (hitem : ∀ s, s.Tidy N n → Consumes N item scope s) (hs : s.Tidy N n) :
    Consumes N (commaSeparated item) scope s := by
  unfold Consumes
  simp only [commaSeparated, settles_bind]
  refine (hitem s hs).mono fun a s₁ h₁ => ?_
  have hs₁ := hs.reaches h₁.reaches
  refine (repeatFrom_settles hs₁ (fun r s₂ hs₂ => ?_) _).mono fun _ _ h => h₁.trans h
  obtain ⟨items, commas⟩ := r
  simp only [settles_bind, settles_atSymbol, settles_ite, settles_advanceLeaf, settles_pure,
    decide_eq_true_eq]
  refine ⟨fun hc => ?_, fun _ => .refl s₂⟩
  have hc := hs₂.advances_tail (by simp [hc])
  exact (hitem _ (hs₂.reaches hc.reaches)).mono fun _ _ h => hc.trans h.reaches

end Parser

end ManifestTree
