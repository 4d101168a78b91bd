import ManifestTree.Proofs.Settling

/-!
# Where a parser refuses

A parser of tokens that refuses its source blames a token: the next one, the one after that, or one
that it has read before.  A `Blame` says which streams may be read, which tokens may then be blamed
and which refusals may be reported, and `Parser.Points B p Q` says of a parser that it keeps to
that: from a stream that may be read it reports a refusal that may be reported, or leaves such a
stream and answers so that `Q` holds.  Nothing is said of how far it reads, so each construct is
taken apart from its first step to its last.
-/

namespace ManifestTree

/-- The spans of the token and of the tokens within its interpolations, at any depth, have the
property `P`, and no interpolation is without tokens. -/
structure Token.Marked (P : Span → Prop) (t : Token) : Prop where
  spans : ∀ u ∈ t.deepTokens, P u.span
  closed : ∀ f ∈ t.deepFragments, ∀ ts, f.piece = .interpolation ts → ts ≠ []

variable {P : Span → Prop}

theorem Token.Marked.span {t : Token} (h : t.Marked P) : P t.span :=
  h.spans t List.mem_cons_self

/-- The tokens of an interpolation are marked as the token is that holds it. -/
theorem Token.Marked.inner {t u : Token} (h : t.Marked P) {f : Fragment}
    (hf : f.deep ⊆ t.deepFragments) (hu : u ∈ f.tokens) : u.Marked P := by
  refine ⟨fun v hv => ?_, fun g hg => h.closed g (hf (Fragment.deepFragments_subset hu hg))⟩
  refine h.spans v (List.mem_cons_of_mem _ (List.mem_flatMap.mpr ?_))
  rcases List.mem_cons.mp hv with rfl | hv
  · exact ⟨f, hf f.self_mem_deep, hu⟩
  · obtain ⟨g, hg, hv⟩ := List.mem_flatMap.mp hv
    exact ⟨g, hf (Fragment.deepFragments_subset hu hg), hv⟩

namespace TokenStream

/-- All tokens of the stream are marked, and so is its end. -/
structure Marked (P : Span → Prop) (s : TokenStream) : Prop where
  rest : ∀ t ∈ s.rest, t.Marked P
  last : s.last.Marked P

variable {s : TokenStream}

theorem Marked.current (h : s.Marked P) : s.current.Marked P := by
  unfold TokenStream.current
  cases hs : s.rest with
  | nil => exact h.last
  | cons t ts => exact h.rest t (hs ▸ List.mem_cons_self)

theorem Marked.tail (h : s.Marked P) : s.tail.Marked P := by
  unfold TokenStream.tail
  split
  · exact h
  · rename_i t ts hs
    exact ⟨fun u hu => h.rest u (hs ▸ List.mem_cons_of_mem _ hu), h.last⟩

theorem Marked.second (h : s.Marked P) : s.second.Marked P := by
  unfold TokenStream.second
  cases hs : s.rest.tail with
  | nil => exact h.last
  | cons t ts => exact h.rest t (List.mem_of_mem_tail (hs ▸ List.mem_cons_self))

theorem ofTokens_marked {ts : List Token} (hne : ts ≠ []) (h : ∀ t ∈ ts, t.Marked P) :
    (ofTokens ts).Marked P := by
  refine ⟨fun t ht => h t (List.dropLast_subset _ ht), h _ ?_⟩
  show ts.getLast?.getD default ∈ ts
  rw [List.getLast?_eq_some_getLast hne, Option.getD_some]
  exact List.getLast_mem hne

end TokenStream

/-- What parsers of tokens may be given and what they may report.  What comes next on a stream that
may be read may be blamed, and what is left of it may be read, as may the interpolations of a token
that may be blamed.  Such a token may be reported for any problem but a second default: that depends
on what was read before it. -/
structure Blame where
  /-- The streams that may be read. -/
  streams : TokenStream → Prop
  /-- The tokens that may be blamed. -/
  tokens : Token → Prop
  /-- The refusals that may be reported. -/
  refusals : SyntaxError → Prop
  current : ∀ {s}, streams s → tokens s.current
  second : ∀ {s}, streams s → tokens s.second
  tail : ∀ {s}, streams s → streams s.tail
  inner : ∀ {t : Token} {f : Fragment} {ts : List Token}, tokens t → f.deep ⊆ t.deepFragments →
    f.piece = .interpolation ts → streams (.ofTokens ts)
  refuses : ∀ {t : Token} {problem : Problem}, tokens t → problem.kind ≠ .duplicateDefault →
    refusals ⟨problem, t.span⟩

namespace Blame

/-- Marked tokens may be blamed for any problem. -/
def marked (P : Span → Prop) : Blame where
  streams := TokenStream.Marked P
  tokens := Token.Marked P
  refusals e := P e.span
  current := TokenStream.Marked.current
  second := TokenStream.Marked.second
  tail := TokenStream.Marked.tail
  inner {t f ts} ht hdeep hp := by
    have htokens : f.tokens = ts := by rw [Fragment.tokens, hp]
    refine TokenStream.ofTokens_marked (ht.closed f (hdeep f.self_mem_deep) ts hp) fun u hu => ?_
    exact ht.inner hdeep (htokens ▸ hu)
  refuses ht _ := ht.span

/-- A token that may be blamed may be reported for a second default. -/
def Lenient (B : Blame) : Prop :=
  ∀ {t : Token} (holder : DefaultHolder), B.tokens t → B.refusals ⟨.duplicateDefault holder, t.span⟩

theorem marked_lenient : (marked P).Lenient := fun _ ht => Token.Marked.span ht

end Blame

namespace Parser

variable {B : Blame} {α β σ : Type} {p : Parser α} {Q R : α → Prop}

/-- Started on the stream `s`, the parser reports a refusal that may be reported, or leaves a stream
that may be read and answers so that `Q` holds. -/
def PointsAt (B : Blame) (p : Parser α) (Q : α → Prop) (scope : Scope) (s : TokenStream) : Prop :=
  match (p.run scope).run s with
  | .ok (a, s') => Q a ∧ B.streams s'
  | .error (.rejected e) => B.refusals e
  | .error _ => True

/-- So it does on every stream that may be read. -/
def Points (B : Blame) (p : Parser α) (Q : α → Prop) : Prop :=
  ∀ scope s, B.streams s → PointsAt B p Q scope s

/-- The parser reports only what may be reported. -/
def Blames (B : Blame) (p : Parser α) : Prop := Points B p fun _ => True

theorem Points.mono (h : Points B p Q) (hQ : ∀ a, Q a → R a) : Points B p R := by
  intro scope s hs
  have h := h scope s hs
  unfold PointsAt at h ⊢
  split at h
  · exact ⟨hQ _ h.1, h.2⟩
  · exact h
  · exact h

theorem points_pure {a : α} (h : Q a) : Points B (pure a) Q := fun _ _ hs => ⟨h, hs⟩

theorem blames_pure (a : α) : Blames B (pure a : Parser α) := points_pure trivial

theorem points_bind {f : α → Parser β} {R : β → Prop} (hp : Points B p Q)
    (hf : ∀ a, Q a → Points B (f a) R) : Points B (p >>= f) R := by
  intro scope s hs
  have hp := hp scope s hs
  unfold PointsAt at hp ⊢
  rw [ReaderT.run_bind, StateT.run_bind]
  cases hr : (p.run scope).run s with
  | error e =>
    rw [hr] at hp
    cases e with
    | rejected e => exact hp
    | _ => trivial
  | ok r =>
    rw [hr] at hp
    exact hf r.1 hp.1 scope r.2 hp.2

/-- A parser whose answer does not matter for what is blamed after it. -/
theorem blames_bind {f : α → Parser β} (hp : Blames B p) (hf : ∀ a, Blames B (f a)) :
    Blames B (p >>= f) := points_bind hp fun a _ => hf a

theorem PointsAt.map {scope : Scope} {s : TokenStream} (h : PointsAt B p (fun _ => True) scope s)
    (f : α → β) : PointsAt B (f <$> p) (fun _ => True) scope s := by
  unfold PointsAt at h ⊢
  rw [map_eq_pure_bind, ReaderT.run_bind, StateT.run_bind]
  cases hr : (p.run scope).run s with
  | error e =>
    rw [hr] at h
    cases e with
    | rejected e => exact h
    | _ => trivial
  | ok r =>
    rw [hr] at h
    exact h

theorem blames_map (f : α → β) (hp : Blames B p) : Blames B (f <$> p) :=
  fun scope s hs => (hp scope s hs).map f

theorem points_ite {c : Prop} [Decidable c] {q : Parser α} (hp : c → Points B p Q)
    (hq : ¬ c → Points B q Q) : Points B (if c then p else q) Q := by
  by_cases h : c
  · rw [if_pos h]
    exact hp h
  · rw [if_neg h]
    exact hq h

theorem blames_ite {c : Prop} [Decidable c] {q : Parser α} (hp : Blames B p) (hq : Blames B q) :
    Blames B (if c then p else q) := points_ite (fun _ => hp) fun _ => hq

/-- A construct that is there if a condition holds. -/
theorem blames_optional {c : Prop} [Decidable c] {f : Option α → Parser β} (hp : Blames B p)
    (hf : ∀ x, Blames B (f x)) :
    Blames B (if c then some <$> p >>= f else pure none >>= f) :=
  blames_ite (blames_bind (blames_map _ hp) hf) (blames_bind (blames_pure _) hf)

theorem points_fail {f : Failure} (h : ∀ e, f = .rejected e → B.refusals e) :
    Points B (fail f : Parser α) Q := by
  intro scope s hs
  cases f with
  | rejected e => exact h e rfl
  | _ => trivial

theorem points_unexpected {t : Token} (ht : B.tokens t) (wanted : Wanted) :
    Points B (unexpected t wanted : Parser α) Q := by
  refine points_fail fun e he => ?_
  cases he
  unfold unexpectedError
  split_ifs <;> exact B.refuses ht nofun

theorem points_lift {e : Except Failure α} (he : ∀ f, e = .error (.rejected f) → B.refusals f)
    (hQ : ∀ a, Q a) : Points B (liftM e : Parser α) Q := by
  intro scope s hs
  cases e with
  | ok a => exact ⟨hQ a, hs⟩
  | error f =>
    cases f with
    | rejected f => exact he f rfl
    | _ => trivial

theorem points_reject {problem : Problem} {span : Span} (h : B.refusals ⟨problem, span⟩) :
    Points B (liftM (ManifestTree.reject problem span : Except Failure α) : Parser α) Q := by
  intro scope s hs
  exact h

/-! ## Primitives -/

theorem points_current : Points B current B.tokens := fun _ _ hs => ⟨B.current hs, hs⟩

theorem points_second : Points B second B.tokens := fun _ _ hs => ⟨B.second hs, hs⟩

theorem points_advance : Points B advance B.tokens := fun _ _ hs => ⟨B.current hs, B.tail hs⟩

theorem pointsAt_current {scope : Scope} {s : TokenStream} {f : Token → Parser α} :
    PointsAt B (current >>= f) Q scope s ↔ PointsAt B (f s.current) Q scope s := Iff.rfl

theorem pointsAt_second {scope : Scope} {s : TokenStream} {f : Token → Parser α} :
    PointsAt B (second >>= f) Q scope s ↔ PointsAt B (f s.second) Q scope s := Iff.rfl

theorem blames_read : Blames B (read : Parser Scope) := fun _ _ hs => ⟨trivial, hs⟩

theorem blames_get : Blames B (get : Parser TokenStream) := fun _ _ hs => ⟨trivial, hs⟩

theorem blames_advance : Blames B advance := points_advance.mono fun _ _ => trivial

theorem blames_advanceLeaf : Blames B advanceLeaf :=
  fun _ _ hs => ⟨trivial, B.tail hs⟩

theorem blames_nextIs (kind : TokenKind) : Blames B (nextIs kind) := fun _ _ hs => ⟨trivial, hs⟩

theorem blames_atSymbol (x : Symbol) : Blames B (atSymbol x) := fun _ _ hs => ⟨trivial, hs⟩

theorem blames_atTouching (x : Symbol) : Blames B (atTouching x) := fun _ _ hs => ⟨trivial, hs⟩

theorem blames_withBraceBlocks (allowed : Bool) (h : Blames B p) :
    Blames B (withBraceBlocks allowed p) := fun _ s hs => h ⟨allowed⟩ s hs

theorem points_expectAny (kinds : List TokenKind) :
    Points B (expectAny kinds) B.tokens := by
  unfold expectAny
  refine points_bind points_current fun t ht => ?_
  refine points_ite (fun _ => points_advance) fun _ => points_fail fun e he => ?_
  cases he
  unfold expectedError
  split_ifs <;> exact B.refuses ht nofun

theorem points_expect (kind : TokenKind) : Points B (expect kind) B.tokens :=
  points_expectAny [kind]

theorem blames_expect (kind : TokenKind) : Blames B (expect kind) :=
  (points_expect kind).mono fun _ _ => trivial

theorem blames_expectSymbol (x : Symbol) : Blames B (expectSymbol x) := blames_expect (.symbol x)

/-- A construct that is read where a symbol comes. -/
theorem blames_atSymbol_ite {x : Symbol} {q : Parser α}
    (hp : ∀ scope s, B.streams s → s.current.kind = .symbol x →
      PointsAt B p (fun _ => True) scope s) (hq : Blames B q) :
    Blames B (do if ← atSymbol x then p else q) := by
  intro scope s hs
  show PointsAt B (if decide (s.current.kind = .symbol x) then p else q) (fun _ => True) scope s
  by_cases hk : s.current.kind = .symbol x
  · rw [if_pos (decide_eq_true hk)]
    exact hp scope s hs hk
  · rw [if_neg (by simpa using hk)]
    exact hq scope s hs

/-- What a run of its own reports. -/
theorem Blames.runOn {s : TokenStream} (h : Blames B p) (hs : B.streams s) {e : SyntaxError}
    (he : runOn p s = .error (.rejected e)) : B.refusals e := by
  have h := h ⟨true⟩ s hs
  unfold PointsAt at h
  unfold Parser.runOn at he
  obtain he | ⟨a, -, he⟩ := bind_eq_error.mp he
  · rw [he] at h
    exact h
  · cases he

/-! ## Loops -/

theorem iterate_blames {step : σ → Parser (σ ⊕ α)} (hstep : ∀ x, Blames B (step x)) (fuel : Nat)
    (x : σ) : Blames B (iterate step fuel x) := by
  induction fuel generalizing x with
  | zero => exact points_fail nofun
  | succ fuel ih =>
    refine blames_bind (hstep x) fun r => ?_
    cases r with
    | inl y => exact ih y
    | inr a => exact blames_pure a

theorem repeatFrom_blames {step : σ → Parser (σ ⊕ α)} (hstep : ∀ x, Blames B (step x)) (x : σ) :
    Blames B (repeatFrom step x) :=
  blames_bind blames_get fun s => iterate_blames hstep (s.rest.length + 1) x

variable {closes : TokenKind → Bool}

theorem untilClosed_blames {item : σ → Parser (α × σ)} (hitem : ∀ x, Blames B (item x)) (x : σ) :
    Blames B (untilClosed closes item x) := by
  refine repeatFrom_blames (fun (items, y) => ?_) _
  refine points_bind points_current fun t _ => ?_
  refine blames_ite (blames_pure _) ?_
  exact blames_bind (hitem y) fun _ => blames_pure _

theorem commaListWith_blames {item : σ → Parser (α × σ)} (hitem : ∀ x, Blames B (item x)) (x : σ) :
    Blames B (commaListWith closes item x) := by
  refine repeatFrom_blames (fun (items, commas, y) => ?_) _
  refine points_bind points_current fun t _ => ?_
  refine blames_ite (blames_pure _) ?_
  refine blames_bind (hitem y) fun _ => blames_bind (blames_atSymbol .comma) fun _ => ?_
  exact blames_ite (blames_bind blames_advanceLeaf fun _ => blames_pure _) (blames_pure _)

theorem commaList_blames (hp : Blames B p) : Blames B (commaList closes p) :=
  commaListWith_blames (fun _ => blames_bind hp fun _ => blames_pure _) ()

theorem commaSeparated_blames (hp : Blames B p) : Blames B (commaSeparated p) := by
  refine blames_bind hp fun first => repeatFrom_blames (fun (items, commas) => ?_) _
  refine blames_bind (blames_atSymbol .comma) fun _ => ?_
  refine blames_ite (blames_bind blames_advanceLeaf fun _ => ?_) (blames_pure _)
  exact blames_bind hp fun _ => blames_pure _

/-! ## Runs that refuse -/

variable {scope : Scope} {s s' : TokenStream} {e : SyntaxError}

/-- Started on the stream `s`, the parser refuses the source. -/
def Rejects (p : Parser α) (scope : Scope) (s : TokenStream) (e : SyntaxError) : Prop :=
  (p.run scope).run s = .error (.rejected e)

theorem rejects_pure {a : α} : ¬ Rejects (pure a) scope s e := nofun

theorem rejects_bind {f : α → Parser β} :
    Rejects (p >>= f) scope s e ↔ Rejects p scope s e ∨
      ∃ a s₁, Gives p scope s a s₁ ∧ Rejects (f a) scope s₁ e := by
  simp only [Rejects, Gives, ReaderT.run_bind, StateT.run_bind]
  rw [bind_eq_error]
  simp only [Prod.exists]

theorem rejects_map {f : α → β} :
    Rejects (f <$> p) scope s e ↔ Rejects p scope s e := by
  simp only [map_eq_pure_bind, rejects_bind, rejects_pure, and_false, exists_false, or_false]

theorem rejects_ite {c : Prop} [Decidable c] {q : Parser α} :
    Rejects (if c then p else q) scope s e ↔
      (c ∧ Rejects p scope s e) ∨ (¬ c ∧ Rejects q scope s e) := by
  by_cases h : c <;> simp [h]

theorem rejects_reject {problem : Problem} {span : Span} :
    Rejects (liftM (ManifestTree.reject problem span : Except Failure α) : Parser α) scope s e ↔
      e = ⟨problem, span⟩ := by
  constructor
  · rintro ⟨⟩
    rfl
  · rintro rfl
    rfl

theorem rejects_current : ¬ Rejects current scope s e := nofun

theorem rejects_advance : ¬ Rejects advance scope s e := nofun

theorem rejects_advanceLeaf : ¬ Rejects advanceLeaf scope s e := nofun

theorem rejects_atSymbol {x : Symbol} : ¬ Rejects (atSymbol x) scope s e := nofun

theorem rejects_withBraceBlocks {allowed : Bool} :
    Rejects (withBraceBlocks allowed p) scope s e ↔ Rejects p ⟨allowed⟩ s e := Iff.rfl

/-- A token that is missing is no second default. -/
theorem rejects_expectSymbol {x : Symbol} (h : Rejects (expectSymbol x) scope s e) :
    e.kind ≠ .duplicateDefault := by
  simp only [expectSymbol, expect, expectAny, rejects_bind, rejects_ite, rejects_current,
    rejects_advance, and_false, false_or] at h
  obtain ⟨_, _, -, -, h⟩ := h
  cases h
  unfold expectedError
  split_ifs <;>
    · intro hkind
      cases hkind

/-- A loop that refuses does so in a round, up to which a property holds that every round keeps. -/
theorem repeatFrom_rejects {step : σ → Parser (σ ⊕ α)} (Inv : σ → TokenStream → Prop)
    (hstep : ∀ x s y s', Inv x s → Gives (step x) scope s (.inl y) s' → Inv y s')
    {x : σ} (hx : Inv x s) (h : Rejects (repeatFrom step x) scope s e) :
    ∃ y s', Inv y s' ∧ Rejects (step y) scope s' e := by
  have hiterate (fuel : Nat) {x : σ} {s : TokenStream} (hx : Inv x s)
      (h : Rejects (iterate step fuel x) scope s e) :
      ∃ y s', Inv y s' ∧ Rejects (step y) scope s' e := by
    induction fuel generalizing x s with
    | zero => cases h
    | succ fuel ih =>
      rcases rejects_bind.mp h with h | ⟨r, s₁, hr, h⟩
      · exact ⟨x, s, hx, h⟩
      · cases r with
        | inl y => exact ih (hstep _ _ _ _ hx hr) h
        | inr a => exact absurd h rejects_pure
  rcases rejects_bind.mp h with h | ⟨t, s₁, ht, h⟩
  · cases h
  · obtain ⟨rfl, rfl⟩ := gives_get.mp ht
    exact hiterate _ hx h

/-- A list with commas that is refused is refused in an item, after items with a comma each. -/
theorem commaListWith_rejects {item : σ → Parser (α × σ)}
    {P : σ → List Token → α → σ → Prop}
    (hitem : ∀ x s r s', s.Closed → Gives (item x) scope s r s' →
      ∃ ts, s.Reads ts s' ∧ P x ts r.1 r.2)
    {x : σ} (hs : s.Closed) (h : Rejects (commaListWith closes item x) scope s e) :
    ∃ items commas st s₁, CommaRounds P s x items commas st s₁ ∧
      Rejects (item st.2.2) scope s₁ e := by
  have h : Rejects (repeatFrom (commaRound closes item) ([], [], x)) scope s e := h
  obtain ⟨st, s₁, ⟨items, commas, hrounds⟩, h⟩ := repeatFrom_rejects
    (fun st s₁ => ∃ items commas, CommaRounds P s x items commas st s₁)
    (fun _ _ _ _ => CommaRounds.round hitem hs)
    ⟨[], [], .refl s, rfl, rfl, .nil x, List.forall_mem_nil _, rfl⟩ h
  simp only [commaRound, rejects_bind, rejects_ite, rejects_current, rejects_pure,
    rejects_atSymbol, rejects_advanceLeaf, gives_current, and_false, false_or, or_false,
    exists_false] at h
  obtain ⟨_, _, ⟨rfl, rfl⟩, -, h⟩ := h
  exact ⟨items, commas, st, _, hrounds, h⟩

/-- Items that are refused are refused in one of them, after others. -/
theorem untilClosed_rejects {item : σ → Parser (α × σ)}
    {P : σ → List Token → α → σ → Prop}
    (hitem : ∀ x s r s', s.Closed → closes s.current.kind = false →
      Gives (item x) scope s r s' → ∃ ts, s.Reads ts s' ∧ P x ts r.1 r.2)
    {x : σ} (hs : s.Closed) (h : Rejects (untilClosed closes item x) scope s e) :
    ∃ items st s₁, ItemRounds P s x items st s₁ ∧ Rejects (item st.2) scope s₁ e := by
  have h : Rejects (repeatFrom (untilRound closes item) ([], x)) scope s e := h
  obtain ⟨st, s₁, ⟨items, hrounds⟩, h⟩ := repeatFrom_rejects
    (fun st s₁ => ∃ items, ItemRounds P s x items st s₁)
    (fun _ _ _ _ => ItemRounds.round hitem hs) ⟨[], .refl s, rfl, .nil x⟩ h
  simp only [untilRound, rejects_bind, rejects_ite, rejects_current, rejects_pure,
    gives_current, and_false, false_or, or_false, exists_false] at h
  obtain ⟨_, _, ⟨rfl, rfl⟩, -, h⟩ := h
  exact ⟨items, st, _, hrounds, h⟩

/-- A parser reports what may be reported if it leaves streams that may be read and refuses so. -/
theorem pointsAt_of
    (hgives : ∀ a s', Gives p scope s a s' → B.streams s')
    (hrejects : ∀ e, Rejects p scope s e → B.refusals e) :
    PointsAt B p (fun _ => True) scope s := by
  unfold PointsAt
  split
  · exact ⟨trivial, hgives _ _ ‹_›⟩
  · exact hrejects _ ‹_›
  · trivial

theorem Blames.rejects (h : Blames B p) (hs : B.streams s)
    (he : Rejects p scope s e) : B.refusals e := by
  have h := h scope s hs
  unfold PointsAt at h
  rw [he] at h
  exact h

end Parser

end ManifestTree
