import ManifestTree.Parse.Manifest
import ManifestTree.Proofs.ReplayedStatements

/-!
# Manifests replayed one after the other

The statements of one source and then those of another are read as each source is read alone, where
a brace ends the statements of the first.
-/

namespace ManifestTree

open Parse ManifestTree.Parser

/-! ## Counts under a view -/

mutual

theorem Token.count_seen (v : View) : (t : Token) → (t.seen v).count = t.count
  | .mk _ _ _ d => congrArg (· + 1) (d.count_seen v)

theorem TokenDetail.count_seen (v : View) : (d : TokenDetail) → (d.seen v).count = d.count
  | .plain => rfl
  | .fragments items => Fragment.countAll_seenAll v items
  | .heredoc _ none => rfl
  | .heredoc _ (some body) => body.count_seen v

theorem HeredocBody.count_seen (v : View) : (b : HeredocBody) → (b.seen v).count = b.count
  | .mk _ fs _ _ _ _ => Fragment.countAll_seenAll v fs

theorem Fragment.count_seen (v : View) : (f : Fragment) → (f.seen v).count = f.count
  | .mk _ _ p => p.count_seen v

theorem Piece.count_seen (v : View) : (p : Piece) → (p.seen v).count = p.count
  | .content => rfl
  | .escape _ => rfl
  | .variable => rfl
  | .interpolation ts => Token.countAll_seenAll v ts

theorem Fragment.countAll_seenAll (v : View) :
    (fs : List Fragment) → Fragment.countAll (Fragment.seenAll v fs) = Fragment.countAll fs
  | [] => rfl
  | f :: fs => congrArg₂ (· + ·) (f.count_seen v) (Fragment.countAll_seenAll v fs)

theorem Token.countAll_seenAll (v : View) :
    (ts : List Token) → Token.countAll (Token.seenAll v ts) = Token.countAll ts
  | [] => rfl
  | t :: ts => congrArg₂ (· + ·) (t.count_seen v) (Token.countAll_seenAll v ts)

end

theorem Token.countAll_seen (v : View) (ts : List Token) :
    Token.countAll (ts.map (Token.seen v)) = Token.countAll ts := by
  rw [← Token.seenAll_eq_map, Token.countAll_seenAll]

/-! ## Tokens in front and tokens after them -/

/-- Tokens of a source in front of others, the last of which is an end of input. -/
def Replay.before {p : Position} {v : View} (source : Text) (hv : v.span = Span.translate p)
    (more : List Token) (final : Token) : Replay :=
  ⟨⟨source, 0⟩, v, p.translate, p.offset, .translate hv, false, more, final⟩

/-- Tokens of a source that an end of input comes after. -/
def Replay.alone {p : Position} {v : View} (source : Text) (hv : v.span = Span.translate p)
    (final : Token) : Replay :=
  ⟨⟨source, 0⟩, v, p.translate, p.offset, .translate hv, true, [], final⟩

namespace Parse

/-! ## Lists of statements -/

variable {g g' : Grammar} {s s' r : TokenStream} {n : Node} {ns ms : List Node} {k : Replay}

/-- Statements one after the other, up to the end of input. -/
inductive Sequence (g : Grammar) : TokenStream → List Node → TokenStream → Prop
  | done {s : TokenStream} : s.current.kind = .endOfInput → Sequence g s [] s
  | next {s s₁ r : TokenStream} {n : Node} {ns : List Node} : s.current.kind ≠ .endOfInput →
    Gives (statement g) ⟨true⟩ s n s₁ → Sequence g s₁ ns r → Sequence g s (n :: ns) r

/-- One round of the parser of statements. -/
def statementRound (g : Grammar) (x : List Node × Unit) :
    Parser ((List Node × Unit) ⊕ (List Node × Unit)) := do
  if (← current).kind = .endOfInput then return .inr (x.1.reverse, x.2)
  else (fun n => .inl (n :: x.1, ())) <$> statement g

theorem gives_iterate_round {fuel : Nat} {ms : List Node} {a : List Node × Unit} :
    Gives (iterate (statementRound g) fuel (ms, ())) ⟨true⟩ s a r ↔
      ∃ ns, a = (ms.reverse ++ ns, ()) ∧ Sequence g s ns r ∧ ns.length < fuel := by
  induction fuel generalizing ms s with
  | zero => simp [iterate]
  | succ fuel ih =>
    simp only [iterate, statementRound, gives_bind, gives_current, gives_ite, gives_pure, gives_map]
    constructor
    · rintro ⟨_, _, ⟨_, _, ⟨rfl, rfl⟩, ⟨hk, rfl, rfl⟩ | ⟨hk, n, hn, rfl⟩⟩, h⟩
      · obtain ⟨rfl, rfl⟩ := gives_pure.mp h
        exact ⟨[], by simp, .done hk, Nat.zero_lt_succ _⟩
      · obtain ⟨ns, rfl, hns, hlt⟩ := ih.mp h
        exact ⟨n :: ns, by simp, .next hk hn hns, Nat.succ_lt_succ hlt⟩
    · rintro ⟨ns, rfl, hns, hlt⟩
      cases hns with
      | done hk =>
        exact ⟨_, _, ⟨_, _, ⟨rfl, rfl⟩, .inl ⟨hk, rfl, rfl⟩⟩, gives_pure.mpr ⟨by simp, rfl⟩⟩
      | next hk hn hns =>
        refine ⟨_, _, ⟨_, _, ⟨rfl, rfl⟩, .inr ⟨hk, _, hn, rfl⟩⟩, ?_⟩
        exact ih.mpr ⟨_, by simp, hns, Nat.lt_of_succ_lt_succ hlt⟩

/-- The parser of statements answers a sequence of them, as many as there are tokens at most. -/
theorem gives_statements :
    Gives (statements g) ⟨true⟩ s ns r ↔ Sequence g s ns r ∧ ns.length ≤ s.rest.length := by
  have hround : statements g = Prod.fst <$> repeatFrom (statementRound g) ([], ()) := by
    rw [map_eq_pure_bind]
    simp only [statements, untilClosed, decide_eq_true_eq, Functor.map_map,
      ← map_eq_pure_bind]
    rfl
  rw [hround, gives_map]
  simp only [gives_repeatFrom, gives_iterate_round]
  constructor
  · rintro ⟨_, ⟨ns, rfl, h, hlt⟩, rfl⟩
    exact ⟨h, Nat.le_of_lt_succ hlt⟩
  · rintro ⟨h, hle⟩
    exact ⟨_, ⟨ns, rfl, h, Nat.lt_succ_of_le hle⟩, rfl⟩

/-- No statement begins with a token that goes on with one. -/
theorem statement_unlinked {scope : Scope} (h : Gives (statement g) scope s n r) :
    Unlinked s.current.kind := by
  simp only [statement, unchained_eq, gives_bind, gives_current, gives_second] at h
  obtain ⟨_, _, ⟨_, _, ⟨rfl, rfl⟩, _, _, ⟨rfl, rfl⟩, h⟩, -⟩ := h
  generalize hnext : s.second.kind = next at h
  -- Such a token would have to begin an expression.
  have hprimary (hk : construct g s.current.kind next = command g Operator.commandRank)
      (hunary : Operator.unary? s.current.kind = none) :
      ∃ m s₁, Gives (primary g .value) scope s m s₁ := by
    rw [hk] at h
    simp only [command, binary, binaryIn, unary, operand, gives_bind, gives_current] at h
    obtain ⟨_, _, ⟨_, _, ⟨_, _, ⟨rfl, rfl⟩, h⟩, -⟩, -⟩ := h
    rw [hunary] at h
    obtain ⟨m, s₁, h, -⟩ := gives_bind.mp h
    exact ⟨m, s₁, h⟩
  refine ⟨fun hk => ?_, fun hk => ?_, ?_⟩
  · obtain ⟨m, s₁, h⟩ := hprimary (by rw [hk]; rfl) (by rw [hk]; rfl)
    simp [primary, Token.literal?, hk] at h
  · obtain ⟨m, s₁, h⟩ := hprimary (by rw [hk]; rfl) (by rw [hk]; rfl)
    simp [primary, Token.literal?, hk] at h
  · unfold chainArrow?
    split
    · rename_i hk
      obtain ⟨m, s₁, h⟩ := hprimary (by rw [hk]; rfl) (by rw [hk]; rfl)
      simp [primary, Token.literal?, hk] at h
    · rename_i hk
      obtain ⟨m, s₁, h⟩ := hprimary (by rw [hk]; rfl) (by rw [hk]; rfl)
      simp [primary, Token.literal?, hk] at h
    · rfl

theorem unlinked_endOfInput : Unlinked .endOfInput := ⟨nofun, nofun, rfl⟩

theorem Sequence.unlinked (h : Sequence g s ns r) : Unlinked s.current.kind := by
  cases h with
  | done hk =>
    rw [hk]
    exact unlinked_endOfInput
  | next _ hn _ => exact statement_unlinked hn

/-- Statements that the end of input comes after are replayed. -/
theorem Sequence.replays (hg : g.Replays k g') (hends : k.ends) (h : Sequence g s ns r)
    (hs : s.Alike k s') : ∃ r', Sequence g' s' (ns.map (Node.seen k.view)) r' := by
  induction h generalizing s' with
  | done hk => exact ⟨s', .done (by rwa [hs.current (.inl hends), Token.seen_kind])⟩
  | next hk hn _ ih =>
    obtain ⟨s₁', hn', hs₁⟩ := (statement_replays hg).gives hs hn (.inl hends)
    obtain ⟨r', hr'⟩ := ih hs₁
    exact ⟨r', .next (by rwa [hs.current (.inl hends), Token.seen_kind]) hn' hr'⟩

/-- Statements the last of which a brace ends are replayed before the statements that come after
them. -/
theorem Sequence.replays_before (hg : g.Replays k g') (hsound : g.Sound) (h : Sequence g s ns r)
    (hs : s.Alike k s') (hc : s.Closed) (hbrace : ∀ n ∈ ns.getLast?, n.kind.endsWithBrace) :
    ∃ r', r.Alike k r' ∧ r.Closed ∧ r.current.kind = .endOfInput ∧
      ∀ {ms t}, Sequence g' r' ms t → Sequence g' s' (ns.map (Node.seen k.view) ++ ms) t := by
  induction h generalizing s' with
  | done hk => exact ⟨s', hs, hc, hk, id⟩
  | @next s s₁ r n ns hk hn hns ih =>
    have hleaves : k.Leaves s := .inr fun hnil => hk (hs.fit.current_of_nil hnil)
    have hfit := ((statement_replays hg).keeps hs.fit hn).1
    have hn' : ∃ s₁', Gives (statement g') ⟨true⟩ s' (n.seen k.view) s₁' ∧ s₁.Alike k s₁' := by
      cases hns with
      | done => exact statement_gives_whole hg hsound hs hc hn (hbrace n rfl)
      | next hk₁ =>
        exact (statement_replays hg).gives hs hn (.inr fun hnil => hk₁ (hfit.current_of_nil hnil))
    obtain ⟨s₁', hn', hs₁⟩ := hn'
    obtain ⟨ts, hreads, -⟩ := statement_yields hsound hc hn
    obtain ⟨r', hr, hcr, hkr, hmore⟩ := ih hs₁ (hreads.closed hc) fun m hm => by
      cases ns with
      | nil => cases hm
      | cons m' ns => exact hbrace m hm
    refine ⟨r', hr, hcr, hkr, fun h => ?_⟩
    exact .next (by rwa [hs.current hleaves, Token.seen_kind]) hn' (hmore h)

section

variable {source₁ source₂ : Text} {p₁ p₂ q₁ q₂ : Position} {v₁ v₂ : View}
  {us₁ us₂ : List Token} {ns₁ ns₂ : List Node}

theorem fit_ofTokens {source : Text} {us : List Token} (hus : ∀ t ∈ us, t.Located source)
    (q : Position) : (TokenStream.ofTokens (us ++ [Token.endAt q])).Fit ⟨source, 0⟩ where
  ending := by rw [TokenStream.ofTokens_last]; rfl
  ends := by rw [TokenStream.ofTokens_last]; exact Int.natCast_nonneg q.offset
  located t ht := by
    rw [TokenStream.ofTokens_rest] at ht
    exact (hus t ht).liesIn

theorem alike_before (q₁ : Position) (v₂ : View) (hv₁ : v₁.span = Span.translate p₁)
    (hus₁ : ∀ t ∈ us₁, t.Located source₁) (hlast : ∀ t ∈ us₁.getLast?, t.kind = .symbol .rightBrace)
    (hsecond : Sequence g (TokenStream.ofTokens (us₂ ++ [Token.endAt q₂])) ns₂ r) :
    (TokenStream.ofTokens (us₁ ++ [Token.endAt q₁])).Alike
      (Replay.before source₁ hv₁ (us₂.map (Token.seen v₂)) ((Token.endAt q₂).seen v₂))
      (TokenStream.ofTokens (us₁.map (Token.seen v₁) ++ us₂.map (Token.seen v₂) ++
        [(Token.endAt q₂).seen v₂])) where
  fit := fit_ofTokens hus₁ q₁
  rest := by rw [TokenStream.ofTokens_rest, TokenStream.ofTokens_rest]; rfl
  final := by rw [TokenStream.ofTokens_last]; rfl
  last := nofun
  behind := nofun
  touches _ := rfl
  closes _ t ht := .inl (hlast t (by rwa [TokenStream.ofTokens_rest] at ht))
  unlinked _ := by
    have hcurrent : ((us₂.map (Token.seen v₂)).headD ((Token.endAt q₂).seen v₂)).kind =
        (TokenStream.ofTokens (us₂ ++ [Token.endAt q₂])).current.kind := by
      unfold TokenStream.current
      rw [TokenStream.ofTokens_rest, TokenStream.ofTokens_last]
      cases us₂ <;> simp
    show Unlinked ((us₂.map (Token.seen v₂)).headD ((Token.endAt q₂).seen v₂)).kind
    rw [hcurrent]
    exact hsecond.unlinked

/-- Where tokens end, others that stand apart from them are read as if nothing came before. -/
theorem alike_after {k : Replay} {r r' : TokenStream} (hv₂ : v₂.span = Span.translate p₂)
    (hus₂ : ∀ t ∈ us₂, t.Located source₂) (hapart : k.source.length + k.shift < p₂.offset)
    (hmore : k.more = us₂.map (Token.seen v₂)) (hfinal : k.final = (Token.endAt q₂).seen v₂)
    (hr : r.Alike k r') (hnil : r.rest = []) :
    (TokenStream.ofTokens (us₂ ++ [Token.endAt q₂])).Alike
      (Replay.alone source₂ hv₂ ((Token.endAt q₂).seen v₂)) r' where
  fit := fit_ofTokens hus₂ q₂
  rest := by
    rw [hr.rest, hnil, hmore, TokenStream.ofTokens_rest]
    exact (List.append_nil _).symm
  final := by rw [hr.final, hfinal]; rfl
  last _ := ⟨rfl, by rw [TokenStream.ofTokens_last]; rfl⟩
  behind stop hstop := by
    have := hr.behind stop hstop
    show stop ≤ source₂.length + p₂.offset
    omega
  touches _ := by
    have hcurrent : (p₂.offset : Int) ≤ r'.current.span.start := by
      unfold TokenStream.current
      rw [hr.rest, hnil, hmore, hr.final, hfinal]
      have hend : (0 : Int) ≤ (Token.endAt q₂).span.start := Int.natCast_nonneg q₂.offset
      cases us₂ with
      | nil => simpa [hv₂] using hend
      | cons t ts =>
        have ht := (hus₂ t List.mem_cons_self).covers.correct.starts
        simpa [hv₂] using ht
    have hfalse : r'.touches = false := by
      unfold TokenStream.touches
      rw [decide_eq_false_iff_not]
      intro h
      have := hr.behind _ h
      omega
    rw [hfalse]
    rfl
  closes h := (h rfl).elim
  unlinked h := (h rfl).elim

/-- The statements of tokens that a brace ends, and then those of other tokens after them. -/
theorem tokens_append (hv₁ : v₁.span = Span.translate p₁)
    (hv₂ : v₂.span = Span.translate p₂) (hapart : p₁.offset + source₁.length < p₂.offset)
    (hus₁ : ∀ t ∈ us₁, t.Located source₁ ∧ t.Closed) (hus₂ : ∀ t ∈ us₂, t.Located source₂)
    (hlast : ∀ t ∈ us₁.getLast?, t.kind = .symbol .rightBrace)
    (hbrace : ∀ n ∈ ns₁.getLast?, n.kind.endsWithBrace)
    (h₁ : Parse.tokens (us₁ ++ [Token.endAt q₁]) = .ok ns₁)
    (h₂ : Parse.tokens (us₂ ++ [Token.endAt q₂]) = .ok ns₂) :
    Parse.tokens (us₁.map (Token.seen v₁) ++ us₂.map (Token.seen v₂) ++
        [(Token.endAt q₂).seen v₂]) =
      .ok (ns₁.map (Node.seen v₁) ++ ns₂.map (Node.seen v₂)) := by
  obtain ⟨r₁, h₁⟩ := runOn_eq_ok.mp h₁
  obtain ⟨r₂, h₂⟩ := runOn_eq_ok.mp h₂
  obtain ⟨hseq₁, hlength₁⟩ := gives_statements.mp h₁
  obtain ⟨hseq₂, hlength₂⟩ := gives_statements.mp h₂
  have hfirst := alike_before q₁ v₂ hv₁ (fun t ht => (hus₁ t ht).1) hlast hseq₂
  have hcount (us : List Token) (t : Token) :
      Token.countAll (us ++ [t]) = Token.countAll us + t.count := by
    rw [Token.countAll_append]
    rfl
  have hone (q : Position) : (Token.endAt q).count = 1 := rfl
  have hbound : Token.countAll (us₁.map (Token.seen v₁) ++ us₂.map (Token.seen v₂) ++
      [(Token.endAt q₂).seen v₂]) = Token.countAll us₁ + Token.countAll us₂ + 1 := by
    rw [hcount, Token.countAll_append, Token.countAll_seen, Token.countAll_seen, Token.count_seen,
      hone]
  have hle₁ : Token.countAll (us₁ ++ [Token.endAt q₁]) + 1 ≤
      Token.countAll us₁ + Token.countAll us₂ + 1 + 1 := by
    rw [hcount, hone]
    omega
  have hle₂ : Token.countAll (us₂ ++ [Token.endAt q₂]) + 1 ≤
      Token.countAll us₁ + Token.countAll us₂ + 1 + 1 := by
    rw [hcount, hone]
    omega
  obtain ⟨r', hr, hcr, hkr, happend⟩ := hseq₁.replays_before (grammar_replays hle₁ _)
    (grammar_sound _) hfirst (ofTokens_closed fun t ht => (hus₁ t ht).2) hbrace
  have hbehind : (source₁.length : Int) + p₁.offset < p₂.offset := by omega
  obtain ⟨r'', hseq⟩ := hseq₂.replays (grammar_replays hle₂ _) rfl
    (alike_after hv₂ hus₂ hbehind rfl rfl hr (hcr.rest_eq_nil hkr))
  refine runOn_eq_ok.mpr ⟨r'', gives_statements.mpr ⟨?_, ?_⟩⟩
  · rw [hbound]
    exact happend hseq
  · rw [TokenStream.ofTokens_rest] at hlength₁ hlength₂ ⊢
    simpa using Nat.add_le_add hlength₁ hlength₂

end

end Parse

end ManifestTree
