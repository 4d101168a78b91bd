import ManifestTree.Parse.Expression
import ManifestTree.Proofs.CursorReads
import Mathlib.Data.Bool.Basic

/-!
# Runs of a parser

`Parser.Gives p scope s a s'` says that the parser `p`, started on the stream `s`, answers `a` and
leaves the stream `s'`.  Each primitive has one lemma that says when it gives what, so a construct
is taken apart by rewriting with them.  The loops are opened once: `repeatFrom_invariant` carries
an invariant through the rounds of a loop.
-/

namespace ManifestTree

namespace Parser

variable {α β σ : Type} {scope : Scope} {s s' : TokenStream}

/-- Started on the stream `s`, the parser answers `a` and leaves the stream `s'`. -/
def Gives (p : Parser α) (scope : Scope) (s : TokenStream) (a : α) (s' : TokenStream) : Prop :=
  (p.run scope).run s = .ok (a, s')

/-! ## Composition -/

@[simp] theorem gives_pure {a b : α} : Gives (pure a) scope s b s' ↔ b = a ∧ s = s' := by
  show Except.ok (a, s) = Except.ok (b, s') ↔ _
  simp [eq_comm]

@[simp] theorem gives_bind {p : Parser α} {f : α → Parser β} {b : β} :
    Gives (p >>= f) scope s b s' ↔
      ∃ a s₁, Gives p scope s a s₁ ∧ Gives (f a) scope s₁ b s' := by
  simp only [Gives, ReaderT.run_bind, StateT.run_bind]
  rw [bind_eq_ok]
  constructor
  · rintro ⟨⟨a, s₁⟩, hp, hf⟩
    exact ⟨a, s₁, hp, hf⟩
  · rintro ⟨a, s₁, hp, hf⟩
    exact ⟨(a, s₁), hp, hf⟩

@[simp] theorem gives_map {p : Parser α} {f : α → β} {b : β} :
    Gives (f <$> p) scope s b s' ↔ ∃ a, Gives p scope s a s' ∧ b = f a := by
  rw [map_eq_pure_bind, gives_bind]
  simp only [gives_pure]
  constructor
  · rintro ⟨a, s₁, hp, rfl, rfl⟩
    exact ⟨a, hp, rfl⟩
  · rintro ⟨a, hp, rfl⟩
    exact ⟨a, _, hp, rfl, rfl⟩

@[simp] theorem gives_ite {c : Prop} [Decidable c] {p q : Parser α} {a : α} :
    Gives (if c then p else q) scope s a s' ↔
      (c ∧ Gives p scope s a s') ∨ (¬ c ∧ Gives q scope s a s') := by
  by_cases h : c <;> simp [h]

/-- What follows both branches follows the choice. -/
theorem ite_bind {c : Prop} [Decidable c] {p q : Parser α} {f : α → Parser β} :
    (if c then p >>= f else q >>= f) = (if c then p else q) >>= f := by
  split <;> rfl

@[simp] theorem gives_fail {f : Failure} {a : α} : ¬ Gives (fail f) scope s a s' := by
  intro h
  cases h

@[simp] theorem gives_unexpected {t : Token} {wanted : Wanted} {a : α} :
    ¬ Gives (unexpected t wanted) scope s a s' := gives_fail

@[simp] theorem gives_lift {e : Except Failure α} {a : α} :
    Gives (liftM e : Parser α) scope s a s' ↔ e = .ok a ∧ s = s' := by
  cases e with
  | error e =>
    constructor
    · intro h
      cases h
    · rintro ⟨h, -⟩
      cases h
  | ok b =>
    show Except.ok (b, s) = Except.ok (a, s') ↔ _
    simp

@[simp] theorem gives_reject {problem : Problem} {span : Span} {a : α} :
    ¬ Gives (liftM (ManifestTree.reject problem span : Except Failure α) : Parser α) scope s a s' :=
  by simp [ManifestTree.reject]

/-! ## Primitives -/

@[simp] theorem gives_get {t : TokenStream} : Gives get scope s t s' ↔ t = s ∧ s = s' := by
  show Except.ok (s, s) = Except.ok (t, s') ↔ _
  simp [eq_comm]

@[simp] theorem gives_read {t : Scope} : Gives read scope s t s' ↔ t = scope ∧ s = s' := by
  show Except.ok (scope, s) = Except.ok (t, s') ↔ _
  simp [eq_comm]

@[simp] theorem gives_set {t : TokenStream} {u : PUnit} : Gives (set t) scope s u s' ↔ s' = t := by
  show Except.ok (PUnit.unit, t) = Except.ok (u, s') ↔ _
  simp [eq_comm]

@[simp] theorem gives_current {t : Token} :
    Gives current scope s t s' ↔ t = s.current ∧ s = s' := by
  simp only [current, gives_bind, gives_get, gives_pure]
  grind

@[simp] theorem gives_second {t : Token} :
    Gives second scope s t s' ↔ t = s.second ∧ s = s' := by
  simp only [second, gives_bind, gives_get, gives_pure]
  grind

@[simp] theorem gives_advance {t : Token} :
    Gives advance scope s t s' ↔ t = s.current ∧ s' = s.tail := by
  simp only [advance, gives_bind, gives_get, gives_pure, gives_set]
  grind

@[simp] theorem gives_advanceLeaf {l : Leaf} :
    Gives advanceLeaf scope s l s' ↔ l = s.current.leaf ∧ s' = s.tail := by
  simp only [advanceLeaf, gives_bind, gives_advance, gives_pure]
  grind

@[simp] theorem gives_nextIs {kind : TokenKind} {b : Bool} :
    Gives (nextIs kind) scope s b s' ↔ b = decide (s.current.kind = kind) ∧ s = s' := by
  simp only [nextIs, gives_bind, gives_get, gives_pure]
  grind

@[simp] theorem gives_atSymbol {x : Symbol} {b : Bool} :
    Gives (atSymbol x) scope s b s' ↔ b = decide (s.current.kind = .symbol x) ∧ s = s' :=
  gives_nextIs

@[simp] theorem gives_touches {b : Bool} :
    Gives touches scope s b s' ↔ b = s.touches ∧ s = s' := by
  simp only [touches, gives_bind, gives_get, gives_pure]
  grind

@[simp] theorem gives_atTouching {x : Symbol} {b : Bool} :
    Gives (atTouching x) scope s b s' ↔
      b = (decide (s.current.kind = .symbol x) && s.touches) ∧ s = s' := by
  simp only [atTouching, gives_bind, gives_atSymbol, gives_touches, gives_pure]
  grind

@[simp] theorem gives_withBraceBlocks {p : Parser α} {allowed : Bool} {a : α} :
    Gives (withBraceBlocks allowed p) scope s a s' ↔ Gives p ⟨allowed⟩ s a s' := Iff.rfl

@[simp] theorem gives_expectAny {kinds : List TokenKind} {t : Token} :
    Gives (expectAny kinds) scope s t s' ↔
      s.current.kind ∈ kinds ∧ t = s.current ∧ s' = s.tail := by
  simp only [expectAny, gives_bind, gives_current, gives_ite, gives_advance, gives_fail,
    List.contains_iff_mem]
  grind

@[simp] theorem gives_expect {kind : TokenKind} {t : Token} :
    Gives (expect kind) scope s t s' ↔
      s.current.kind = kind ∧ t = s.current ∧ s' = s.tail := by
  simp [expect]

@[simp] theorem gives_expectSymbol {x : Symbol} {t : Token} :
    Gives (expectSymbol x) scope s t s' ↔
      s.current.kind = .symbol x ∧ t = s.current ∧ s' = s.tail := gives_expect

/-- A run on a stream of its own forgets what is left. -/
theorem runOn_eq_ok {p : Parser α} {a : α} :
    runOn p s = .ok a ↔ ∃ s', Gives p ⟨true⟩ s a s' := by
  unfold runOn
  rw [bind_eq_ok]
  constructor
  · rintro ⟨⟨b, s'⟩, hp, hb⟩
    cases hb
    exact ⟨s', hp⟩
  · rintro ⟨s', hp⟩
    exact ⟨(a, s'), hp, rfl⟩

/-! ## Loops -/

/-- A property that every round of a loop keeps holds when the loop ends. -/
theorem iterate_invariant {step : σ → Parser (σ ⊕ α)} (Inv : σ → TokenStream → Prop)
    (Post : α → TokenStream → Prop)
    (hstep : ∀ x s y s', Inv x s → Gives (step x) scope s (.inl y) s' → Inv y s')
    (hdone : ∀ x s a s', Inv x s → Gives (step x) scope s (.inr a) s' → Post a s')
    {x : σ} {a : α} (fuel : Nat) (hx : Inv x s)
    (h : Gives (iterate step fuel x) scope s a s') : Post a s' := by
  induction fuel generalizing x s with
  | zero => exact absurd h gives_fail
  | succ fuel ih =>
    simp only [iterate, gives_bind] at h
    obtain ⟨r, s₁, hr, h⟩ := h
    cases r with
    | inl y => exact ih (hstep _ _ _ _ hx hr) h
    | inr b =>
      obtain ⟨rfl, rfl⟩ := gives_pure.mp h
      exact hdone _ _ _ _ hx hr

/-- A property that every round of a loop keeps holds when the loop ends. -/
theorem repeatFrom_invariant {step : σ → Parser (σ ⊕ α)} (Inv : σ → TokenStream → Prop)
    (Post : α → TokenStream → Prop)
    (hstep : ∀ x s y s', Inv x s → Gives (step x) scope s (.inl y) s' → Inv y s')
    (hdone : ∀ x s a s', Inv x s → Gives (step x) scope s (.inr a) s' → Post a s')
    {x : σ} {a : α} (hx : Inv x s) (h : Gives (repeatFrom step x) scope s a s') : Post a s' := by
  simp only [repeatFrom, gives_bind, gives_get] at h
  obtain ⟨t, s₁, ⟨rfl, rfl⟩, h⟩ := h
  exact iterate_invariant Inv Post hstep hdone _ hx h

/-- A loop that its first round ends. -/
theorem repeatFrom_stops {step : σ → Parser (σ ⊕ α)} {x : σ} {a : α}
    (h : Gives (step x) scope s (.inr a) s') : Gives (repeatFrom step x) scope s a s' := by
  simp only [repeatFrom, gives_bind, gives_get, iterate]
  exact ⟨s, s, ⟨rfl, rfl⟩, .inr a, s', h, gives_pure.mpr ⟨rfl, rfl⟩⟩

/-- A loop answers if every round ends it or consumes a token. -/
theorem iterate_gives {step : σ → Parser (σ ⊕ α)} (Inv : σ → TokenStream → Prop)
    (Post : α → TokenStream → Prop)
    (hstep : ∀ x s, Inv x s → (∃ a s', Gives (step x) scope s (.inr a) s' ∧ Post a s') ∨
      ∃ y s', Gives (step x) scope s (.inl y) s' ∧ s'.rest.length < s.rest.length ∧ Inv y s')
    {x : σ} (fuel : Nat) (hfuel : s.rest.length < fuel) (hx : Inv x s) :
    ∃ a s', Gives (iterate step fuel x) scope s a s' ∧ Post a s' := by
  induction fuel generalizing x s with
  | zero => exact absurd hfuel (Nat.not_lt_zero _)
  | succ fuel ih =>
    simp only [iterate, gives_bind]
    rcases hstep x s hx with ⟨a, s', hr, hp⟩ | ⟨y, s₁, hr, hlt, hy⟩
    · exact ⟨a, s', ⟨.inr a, s', hr, gives_pure.mpr ⟨rfl, rfl⟩⟩, hp⟩
    · obtain ⟨a, s', hrest, hp⟩ := ih (by omega) hy
      exact ⟨a, s', ⟨.inl y, s₁, hr, hrest⟩, hp⟩

/-- A loop answers if every round ends it or consumes a token. -/
theorem repeatFrom_gives {step : σ → Parser (σ ⊕ α)} (Inv : σ → TokenStream → Prop)
    (Post : α → TokenStream → Prop)
    (hstep : ∀ x s, Inv x s → (∃ a s', Gives (step x) scope s (.inr a) s' ∧ Post a s') ∨
      ∃ y s', Gives (step x) scope s (.inl y) s' ∧ s'.rest.length < s.rest.length ∧ Inv y s')
    {x : σ} (hx : Inv x s) : ∃ a s', Gives (repeatFrom step x) scope s a s' ∧ Post a s' := by
  obtain ⟨a, s', hr, hp⟩ := iterate_gives Inv Post hstep _ (Nat.lt_succ_self _) hx
  simp only [repeatFrom, gives_bind, gives_get]
  exact ⟨a, s', ⟨s, s, ⟨rfl, rfl⟩, hr⟩, hp⟩

end Parser

end ManifestTree
