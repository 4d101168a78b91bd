import ManifestTree.Proofs.Derivation
import ManifestTree.Proofs.Runs

/-!
# Reading from a stream

`TokenStream.Reads s ts s'` says that the stream `s'` is what is left of `s` after the tokens `ts`.
A parser that answers has read some tokens, and `TokenStream.Yields` adds that they make the node
it answers.  For the loops of the grammar it is shown once which series of constructs they read.
-/

namespace ManifestTree

open Parse

namespace TokenStream

/-- The second stream is what is left of the first after some tokens. -/
structure Reads (s : TokenStream) (ts : List Token) (s' : TokenStream) : Prop where
  rest : s.rest = ts ++ s'.rest
  last : s'.last = s.last

theorem Reads.refl (s : TokenStream) : s.Reads [] s := ⟨rfl, rfl⟩

theorem Reads.trans {s s₁ s₂ : TokenStream} {ts us : List Token} (h : s.Reads ts s₁)
    (k : s₁.Reads us s₂) : s.Reads (ts ++ us) s₂ :=
  ⟨by rw [h.rest, k.rest, List.append_assoc], k.last.trans h.last⟩

/-- The stream ends with an end of input, and every token before it is closed. -/
structure Closed (s : TokenStream) : Prop where
  last : s.last.kind = .endOfInput
  rest : ∀ t ∈ s.rest, t.Closed

theorem Reads.closed {s s' : TokenStream} {ts : List Token} (h : s.Reads ts s') (hs : s.Closed) :
    s'.Closed :=
  ⟨h.last ▸ hs.last, fun t ht => hs.rest t (h.rest ▸ List.mem_append_right _ ht)⟩

theorem Reads.closed_of_mem {s s' : TokenStream} {ts : List Token} (h : s.Reads ts s')
    (hs : s.Closed) {t : Token} (ht : t ∈ ts) : t.Closed :=
  hs.rest t (h.rest ▸ List.mem_append_left _ ht)

/-- A token that is no end of input is there to be read. -/
theorem reads_tail {s : TokenStream} (hs : s.last.kind = .endOfInput)
    (hk : s.current.kind ≠ .endOfInput) : s.Reads [s.current] s.tail := by
  obtain ⟨rest, last, stop⟩ := s
  cases rest with
  | nil => exact absurd hs hk
  | cons t ts => exact ⟨rfl, rfl⟩

theorem Closed.reads_tail {s : TokenStream} (hs : s.Closed) (hk : s.current.kind ≠ .endOfInput) :
    s.Reads [s.current] s.tail := TokenStream.reads_tail hs.last hk

/-- A stream at its end of input has no tokens left. -/
theorem Closed.rest_eq_nil {s : TokenStream} (hs : s.Closed)
    (hk : s.current.kind = .endOfInput) : s.rest = [] := by
  obtain ⟨rest, last, stop⟩ := s
  cases rest with
  | nil => rfl
  | cons t ts => exact absurd hk (hs.rest t List.mem_cons_self).1

/-- A stream that touches goes on with a token that touches. -/
theorem touches_tail {s : TokenStream} {t : Token} {ts : List Token} (h : s.rest = t :: ts) :
    s.tail.touches = decide (t.span.stop = s.tail.current.span.start) := by
  unfold touches tail
  rw [h]
  simp

/-- The tokens read make the node. -/
def Yields (s : TokenStream) (c : Category) (n : Node) (s' : TokenStream) : Prop :=
  ∃ ts, s.Reads ts s' ∧ Derives c ts n

end TokenStream

/-! ## Series -/

namespace Parse

theorem weave_nil (xs : List (List Token)) : weave xs [] = xs.flatten := by
  induction xs with
  | nil => rfl
  | cons x xs ih => simp [weave, ih]

/-- As many separators as items come out item by item. -/
theorem weave_append {xs : List (List Token)} {cs : List Token} (h : xs.length = cs.length)
    (ys : List (List Token)) (ds : List Token) :
    weave (xs ++ ys) (cs ++ ds) = weave xs cs ++ weave ys ds := by
  induction xs generalizing cs with
  | nil =>
    obtain rfl := List.length_eq_zero_iff.mp h.symm
    rfl
  | cons x xs ih =>
    cases cs with
    | nil => simp at h
    | cons c cs => simp [weave, ih (Nat.succ.inj h)]

/-- One more separator and one more item at the end. -/
theorem weave_snoc {xs : List (List Token)} {cs : List Token} (c : Token) (y : List Token)
    (h : xs.length = cs.length + 1) :
    weave (xs ++ [y]) (cs ++ [c]) = weave xs cs ++ c :: y := by
  induction xs generalizing cs with
  | nil => simp at h
  | cons x xs ih =>
    cases cs with
    | nil =>
      obtain rfl : xs = [] := by simpa using h
      simp [weave]
    | cons d cs => simp [weave, ih (Nat.succ.inj h)]

/-- One more item where every item so far has its separator. -/
theorem Series.tokens_item {l : Series} (h : l.items.length = l.seps.length) (i : Segment) :
    Series.tokens ⟨l.items ++ [i], l.seps⟩ = l.tokens ++ i.1 := by
  have h : (l.items.map Prod.fst).length = l.seps.length := by simpa using h
  simpa [Series.tokens, weave] using weave_append h [i.1] []

/-- One more item and its separator. -/
theorem Series.tokens_item_sep {l : Series} (h : l.items.length = l.seps.length) (i : Segment)
    (sep : Token) :
    Series.tokens ⟨l.items ++ [i], l.seps ++ [sep]⟩ = l.tokens ++ i.1 ++ [sep] := by
  have h : (l.items.map Prod.fst).length = l.seps.length := by simpa using h
  simpa [Series.tokens, weave] using weave_append h [i.1] [sep]

/-- A separator after the last item. -/
theorem Series.tokens_sep {l : Series} (h : l.Tight) (sep : Token) :
    Series.tokens ⟨l.items, l.seps ++ [sep]⟩ = l.tokens ++ [sep] := by
  have hweave (xs : List (List Token)) (cs : List Token) (h : xs.length = cs.length + 1) :
      weave xs (cs ++ [sep]) = weave xs cs ++ [sep] := by
    induction xs generalizing cs with
    | nil => simp at h
    | cons x xs ih =>
      cases cs with
      | nil =>
        obtain rfl : xs = [] := by simpa using h
        simp [weave]
      | cons c cs => simp [weave, ih cs (Nat.succ.inj h)]
  exact hweave _ _ (by simpa [Series.Tight] using h)

variable {α σ : Type}

/-- Items read one after the other, each leading from one state to the next. -/
inductive Trace (P : σ → List Token → α → σ → Prop) : σ → List (List Token × α) → σ → Prop
  | nil (x : σ) : Trace P x [] x
  | snoc {x y z : σ} {items : List (List Token × α)} {ts : List Token} {a : α} :
      Trace P x items y → P y ts a z → Trace P x (items ++ [(ts, a)]) z

theorem Trace.forall_mem {P : σ → List Token → α → σ → Prop} {Q : List Token → α → Prop}
    {x y : σ} {items : List (List Token × α)} (h : Trace P x items y)
    (hQ : ∀ x ts a y, P x ts a y → Q ts a) : ∀ i ∈ items, Q i.1 i.2 := by
  induction h with
  | nil => simp
  | snoc _ hp ih =>
    intro i hi
    rcases List.mem_append.mp hi with hi | hi
    · exact ih i hi
    · rw [List.mem_singleton.mp hi]
      exact hQ _ _ _ _ hp

/-- What each item adds to a number of the state adds up. -/
theorem Trace.sum_eq {P : σ → List Token → α → σ → Prop} {x y : σ}
    {items : List (List Token × α)} (h : Trace P x items y) (f : α → Nat) (number : σ → Nat)
    (hP : ∀ x ts a y, P x ts a y → number x + f a = number y) :
    number x + (items.map fun i => f i.2).sum = number y := by
  induction h with
  | nil => rfl
  | snoc _ hp ih =>
    rw [List.map_append, List.sum_append, ← Nat.add_assoc, ih, ← hP _ _ _ _ hp]
    simp

end Parse

/-! ## Loops -/

namespace Parser

open TokenStream

variable {α σ : Type} {scope : Scope} {s s' : TokenStream} {closes : TokenKind → Bool}

def commaRound (closes : TokenKind → Bool) (item : σ → Parser (α × σ)) :
    List α × List Leaf × σ → Parser ((List α × List Leaf × σ) ⊕ (List α × List Leaf)) :=
  fun (items, commas, x) => do
    if closes (← current).kind then return .inr (items.reverse, commas.reverse)
    else
      let (a, x) ← item x
      if ← atSymbol .comma then return .inl (a :: items, (← advanceLeaf) :: commas, x)
      else return .inr ((a :: items).reverse, commas.reverse)

/-- What rounds of `commaListWith` have read: items, each with a comma after it. -/
structure CommaRounds (P : σ → List Token → α → σ → Prop) (s : TokenStream) (x : σ)
    (items : List (List Token × α)) (commas : List Token) (st : List α × List Leaf × σ)
    (s' : TokenStream) : Prop where
  reads : s.Reads (weave (items.map Prod.fst) commas) s'
  answers : st.1 = (items.map Prod.snd).reverse
  signs : st.2.1 = (commas.map Token.leaf).reverse
  trace : Trace P x items st.2.2
  kinds : ∀ t ∈ commas, t.kind = .symbol .comma
  paired : items.length = commas.length

theorem CommaRounds.round {item : σ → Parser (α × σ)} {P : σ → List Token → α → σ → Prop}
    (hitem : ∀ x s r s', s.Closed → Gives (item x) scope s r s' →
      ∃ ts, s.Reads ts s' ∧ P x ts r.1 r.2)
    {x : σ} (hs : s.Closed) {st z : List α × List Leaf × σ} {s₁ s₂ : TokenStream}
    (h : ∃ items commas, CommaRounds P s x items commas st s₁)
    (hround : Gives (commaRound closes item st) scope s₁ (.inl z) s₂) :
    ∃ items commas, CommaRounds P s x items commas z s₂ := by
  obtain ⟨items, commas, hreads, hanswers, hsigns, htrace, hkinds, hpaired⟩ := h
  simp only [commaRound, gives_bind, gives_current, gives_ite, gives_pure, gives_atSymbol,
    gives_advanceLeaf, reduceCtorEq, and_false, false_and, false_or, or_false] at hround
  obtain ⟨_, _, ⟨rfl, rfl⟩, _, ⟨a, y⟩, s₄, hi, _, _, ⟨rfl, rfl⟩, hk, _, _, ⟨rfl, rfl⟩, hz, rfl⟩ :=
    hround
  cases hz
  obtain ⟨ts, hreads₁, hp⟩ := hitem _ _ _ _ (hreads.closed hs) hi
  have hk : s₄.current.kind = .symbol .comma := by simpa using hk
  have hreads₂ := (hreads₁.closed (hreads.closed hs)).reads_tail (by simp [hk])
  refine ⟨items ++ [(ts, a)], commas ++ [s₄.current], ?_, ?_, ?_, .snoc htrace hp, ?_, ?_⟩
  · rw [List.map_append, weave_append (by simpa using hpaired)]
    exact hreads.trans (hreads₁.trans hreads₂)
  · simp [hanswers]
  · simp [hsigns]
  · intro t ht
    rcases List.mem_append.mp ht with ht | ht
    · exact hkinds t ht
    · rw [List.mem_singleton.mp ht, hk]
  · simp [hpaired]

theorem commaListWith_reads {item : σ → Parser (α × σ)} {P : σ → List Token → α → σ → Prop}
    (hitem : ∀ x s r s', s.Closed → Gives (item x) scope s r s' →
      ∃ ts, s.Reads ts s' ∧ P x ts r.1 r.2)
    {x : σ} {r : List α × List Leaf} (hs : s.Closed)
    (h : Gives (commaListWith closes item x) scope s r s') :
    ∃ (items : List (List Token × α)) (commas : List Token) (y : σ),
      s.Reads (weave (items.map Prod.fst) commas) s' ∧
      r = (items.map Prod.snd, commas.map Token.leaf) ∧ Trace P x items y ∧
      (∀ t ∈ commas, t.kind = .symbol .comma) ∧
      items.length ≤ commas.length + 1 ∧ commas.length ≤ items.length := by
  have h : Gives (repeatFrom (commaRound closes item) ([], [], x)) scope s r s' := h
  refine repeatFrom_invariant (fun st s₁ => ∃ items commas, CommaRounds P s x items commas st s₁)
    (fun r s₁ => ∃ (items : List (List Token × α)) (commas : List Token) (y : σ),
      s.Reads (weave (items.map Prod.fst) commas) s₁ ∧
      r = (items.map Prod.snd, commas.map Token.leaf) ∧ Trace P x items y ∧
      (∀ t ∈ commas, t.kind = .symbol .comma) ∧
      items.length ≤ commas.length + 1 ∧ commas.length ≤ items.length)
    (fun _ _ _ _ => CommaRounds.round hitem hs) ?_
    ⟨[], [], .refl s, rfl, rfl, .nil x, List.forall_mem_nil _, rfl⟩ h
  rintro ⟨accItems, accCommas, y⟩ s₁ z s₂ ⟨items, commas, hr, rfl, rfl, ht, hc, hl⟩ hround
  simp only [commaRound, gives_bind, gives_current, gives_ite, gives_pure, gives_atSymbol,
    gives_advanceLeaf] at hround
  obtain ⟨t, s₃, ⟨rfl, rfl⟩, hround⟩ := hround
  rcases hround with ⟨_, hz, rfl⟩ | ⟨_, ⟨a, y'⟩, s₄, hi, b, s₅, ⟨rfl, rfl⟩, hround⟩
  · cases hz
    exact ⟨items, commas, y, hr, by simp, ht, hc, by omega, by omega⟩
  rcases hround with ⟨_, _, _, _, hbad, _⟩ | ⟨_, hz, rfl⟩
  · cases hbad
  · cases hz
    obtain ⟨ts, hr₁, hp⟩ := hitem _ _ _ _ (hr.closed hs) hi
    refine ⟨items ++ [(ts, a)], commas, y', ?_, by simp, .snoc ht hp, hc, by simp [hl],
      by simp [hl]⟩
    have hw : weave ((items ++ [(ts, a)]).map Prod.fst) commas =
        weave (items.map Prod.fst) commas ++ ts := by
      have hl : (items.map Prod.fst).length = commas.length := by simpa using hl
      simpa [weave] using weave_append hl [ts] []
    rw [hw]
    exact hr.trans hr₁

/-- The series that `commaList` reads. -/
theorem commaList_reads {item : Parser Node} {P : List Token → Node → Prop}
    (hitem : ∀ s n s', s.Closed → Gives item scope s n s' → ∃ ts, s.Reads ts s' ∧ P ts n)
    {r : List Node × List Leaf} (hs : s.Closed)
    (h : Gives (commaList closes item) scope s r s') :
    ∃ l : Series, s.Reads l.tokens s' ∧ r = (l.nodes, l.leaves) ∧ l.SeparatedBy .comma ∧
      ∀ i ∈ l.items, P i.1 i.2 := by
  obtain ⟨items, commas, _, hr, rfl, ht, hc, h₁, h₂⟩ :=
    commaListWith_reads (P := fun _ ts n _ => P ts n) (fun x s r s' hs h => by
      simp only [gives_bind, gives_pure] at h
      obtain ⟨n, _, hn, rfl, rfl⟩ := h
      exact hitem _ _ _ hs hn) hs h
  exact ⟨⟨items, commas⟩, hr, rfl, ⟨hc, h₁, h₂⟩, ht.forall_mem fun _ _ _ _ hp => hp⟩

def untilRound (closes : TokenKind → Bool) (item : σ → Parser (α × σ)) :
    List α × σ → Parser ((List α × σ) ⊕ (List α × σ)) :=
  fun (items, x) => do
    if closes (← current).kind then return .inr (items.reverse, x)
    else
      let (a, x) ← item x
      return .inl (a :: items, x)

/-- What rounds of `untilClosed` have read: one item each. -/
structure ItemRounds (P : σ → List Token → α → σ → Prop) (s : TokenStream) (x : σ)
    (items : List (List Token × α)) (st : List α × σ) (s' : TokenStream) : Prop where
  reads : s.Reads (items.flatMap Prod.fst) s'
  answers : st.1 = (items.map Prod.snd).reverse
  trace : Trace P x items st.2

theorem ItemRounds.round {item : σ → Parser (α × σ)} {P : σ → List Token → α → σ → Prop}
    (hitem : ∀ x s r s', s.Closed → closes s.current.kind = false →
      Gives (item x) scope s r s' → ∃ ts, s.Reads ts s' ∧ P x ts r.1 r.2)
    {x : σ} (hs : s.Closed) {st z : List α × σ} {s₁ s₂ : TokenStream}
    (h : ∃ items, ItemRounds P s x items st s₁)
    (hround : Gives (untilRound closes item st) scope s₁ (.inl z) s₂) :
    ∃ items, ItemRounds P s x items z s₂ := by
  obtain ⟨items, hreads, hanswers, htrace⟩ := h
  simp only [untilRound, gives_bind, gives_current, gives_ite, gives_pure, reduceCtorEq, and_false,
    false_and, false_or] at hround
  obtain ⟨_, _, ⟨rfl, rfl⟩, hk, ⟨a, y⟩, s₄, hi, hz, rfl⟩ := hround
  cases hz
  obtain ⟨ts, hreads₁, hp⟩ := hitem _ _ _ _ (hreads.closed hs) (by simpa using hk) hi
  refine ⟨items ++ [(ts, a)], ?_, ?_, .snoc htrace hp⟩
  · simpa using hreads.trans hreads₁
  · simp [hanswers]

/-- The items that `untilClosed` reads, and that a token which closes them comes next. -/
theorem untilClosed_reads {item : σ → Parser (α × σ)} {P : σ → List Token → α → σ → Prop}
    (hitem : ∀ x s r s', s.Closed → closes s.current.kind = false →
      Gives (item x) scope s r s' → ∃ ts, s.Reads ts s' ∧ P x ts r.1 r.2)
    {x : σ} {r : List α × σ} (hs : s.Closed)
    (h : Gives (untilClosed closes item x) scope s r s') :
    ∃ items : List (List Token × α), s.Reads (items.flatMap Prod.fst) s' ∧
      r.1 = items.map Prod.snd ∧ Trace P x items r.2 ∧ closes s'.current.kind := by
  have h : Gives (repeatFrom (untilRound closes item) ([], x)) scope s r s' := h
  refine repeatFrom_invariant (fun st s₁ => ∃ items, ItemRounds P s x items st s₁)
    (fun r s₁ => ∃ items : List (List Token × α), s.Reads (items.flatMap Prod.fst) s₁ ∧
      r.1 = items.map Prod.snd ∧ Trace P x items r.2 ∧ closes s₁.current.kind)
    (fun _ _ _ _ => ItemRounds.round hitem hs) ?_ ⟨[], .refl s, rfl, .nil x⟩ h
  rintro ⟨acc, y⟩ s₁ z s₂ ⟨items, hr, rfl, ht⟩ hround
  simp only [untilRound, gives_bind, gives_current, gives_ite, gives_pure] at hround
  obtain ⟨t, s₃, ⟨rfl, rfl⟩, ⟨hk, hz, rfl⟩ | ⟨_, _, _, _, hbad, _⟩⟩ := hround
  · cases hz
    exact ⟨items, hr, by simp, ht, hk⟩
  · cases hbad

/-- The series that `commaSeparated` reads. -/
theorem commaSeparated_reads {item : Parser Node} {P : List Token → Node → Prop}
    (hitem : ∀ s n s', s.Closed → Gives item scope s n s' → ∃ ts, s.Reads ts s' ∧ P ts n)
    {r : List Node × List Leaf} (hs : s.Closed)
    (h : Gives (commaSeparated item) scope s r s') :
    ∃ l : Series, s.Reads l.tokens s' ∧ r = (l.nodes, l.leaves) ∧ l.SeparatedBy .comma ∧
      l.Tight ∧ ∀ i ∈ l.items, P i.1 i.2 := by
  simp only [commaSeparated, gives_bind] at h
  obtain ⟨first, s₀, hfirst, h⟩ := h
  obtain ⟨ts₀, hr₀, hp₀⟩ := hitem _ _ _ hs hfirst
  refine repeatFrom_invariant
    (fun st s₁ => ∃ l : Series, s.Reads l.tokens s₁ ∧ st.1 = l.nodes.reverse ∧
      st.2 = l.leaves.reverse ∧ (∀ t ∈ l.seps, t.kind = .symbol .comma) ∧ l.Tight ∧
      ∀ i ∈ l.items, P i.1 i.2)
    (fun r s₁ => ∃ l : Series, s.Reads l.tokens s₁ ∧ r = (l.nodes, l.leaves) ∧
      l.SeparatedBy .comma ∧ l.Tight ∧ ∀ i ∈ l.items, P i.1 i.2)
    ?_ ?_ ⟨⟨[(ts₀, first)], []⟩, by simpa [Series.tokens, weave] using hr₀, rfl, rfl, by simp, rfl,
      by simpa using hp₀⟩ h
  · rintro ⟨accItems, accCommas⟩ s₁ z s₂ ⟨l, hr, rfl, rfl, hc, hl, hP⟩ hstep
    simp only [gives_bind, gives_atSymbol, gives_ite, gives_pure, gives_advanceLeaf] at hstep
    obtain ⟨b, s₃, ⟨rfl, rfl⟩, ⟨hk, c, s₄, ⟨rfl, rfl⟩, n, s₅, hn, hz, rfl⟩ | ⟨_, hbad, _⟩⟩ := hstep
    · cases hz
      have hk : s₁.current.kind = .symbol .comma := by simpa using hk
      have hr₁ := (hr.closed hs).reads_tail (by simp [hk])
      obtain ⟨ts, hr₂, hp⟩ := hitem _ _ _ (hr₁.closed (hr.closed hs)) hn
      refine ⟨⟨l.items ++ [(ts, n)], l.seps ++ [s₁.current]⟩, ?_, by simp [Series.nodes],
        by simp [Series.leaves], ?_, ?_, ?_⟩
      · have := hr.trans (hr₁.trans hr₂)
        rwa [Series.tokens, List.map_append, List.map_singleton,
          weave_snoc _ _ (by simpa [Series.Tight] using hl)]
      · intro t ht
        rcases List.mem_append.mp ht with ht | ht
        · exact hc t ht
        · rw [List.mem_singleton.mp ht, hk]
      · simpa [Series.Tight] using hl
      · intro i hi
        rcases List.mem_append.mp hi with hi | hi
        · exact hP i hi
        · rw [List.mem_singleton.mp hi]
          exact hp
    · cases hbad
  · rintro ⟨accItems, accCommas⟩ s₁ z s₂ ⟨l, hr, rfl, rfl, hc, hl, hP⟩ hstep
    simp only [gives_bind, gives_atSymbol, gives_ite, gives_pure, gives_advanceLeaf] at hstep
    obtain ⟨b, s₃, ⟨rfl, rfl⟩, ⟨_, _, _, _, _, _, _, hbad, _⟩ | ⟨_, hz, rfl⟩⟩ := hstep
    · cases hbad
    · cases hz
      have hl' : l.items.length = l.seps.length + 1 := hl
      exact ⟨l, hr, by simp, ⟨hc, by omega, by omega⟩, hl, hP⟩

end Parser

end ManifestTree
