import ManifestTree.Parse.Manifest
import ManifestTree.Proofs.NodeViews
import ManifestTree.Proofs.Runs

/-!
# Parsers replayed elsewhere

The tokens of a source may stand elsewhere in another source, with other tokens after them.  A parser
answers there what it answered, with the places where the tokens now stand: it decides by the kinds
and texts of tokens, and by whether tokens touch.  `Parser.Replays` says so of a run that leaves a
token, so that it never met the end of input, and `Parser.ReplaysWhole` of any run.
-/

namespace ManifestTree

open Parse ManifestTree.Parser

/-- Tokens of a source, from an offset on, that stand elsewhere: how they look there and how places
move, whether the input ends with them, which tokens come after them otherwise, and the end of input
there. -/
structure Replay extends Tract where
  view : View
  move : Position → Position
  shift : Int
  moves : view.Moves first move shift
  ends : Bool
  more : List Token
  final : Token

namespace Replay

@[simp] theorem view_join (k : Replay) (a b : Span) :
    k.view.span (a.join b) = (k.view.span a).join (k.view.span b) := k.moves.join a b

@[simp] theorem view_stop (k : Replay) (s : Span) : (k.view.span s).stop = s.stop + k.shift :=
  k.moves.stop s

/-- Tokens that only an end of input comes after. -/
def closed (k : Replay) (final : Token) : Replay := { k with ends := true, more := [], final }

/-- What comes after the tokens. -/
def following (k : Replay) : Token := k.more.headD k.final

/-- A run that leaves this stream did not meet the end of input where other tokens come. -/
def Leaves (k : Replay) (r : TokenStream) : Prop := k.ends ∨ r.rest ≠ []

end Replay

/-! ## What parsers answer -/

/-- What parsers answer looks the same elsewhere but for places. -/
class Viewed (α : Type) where
  /-- How an answer looks elsewhere. -/
  look : View → α → α

open Viewed (look)

section

variable {α β : Type} [Viewed α] [Viewed β]

instance : Viewed Token := ⟨Token.seen⟩
instance : Viewed Leaf := ⟨Leaf.seen⟩
instance : Viewed Node := ⟨Node.seen⟩
instance : Viewed Bool := ⟨fun _ => id⟩
instance : Viewed Unit := ⟨fun _ => id⟩
instance : Viewed Scope := ⟨fun _ => id⟩
instance : Viewed AttributeOperator := ⟨fun _ => id⟩
instance : Viewed (List α) := ⟨fun v => List.map (look v)⟩
instance : Viewed (Option α) := ⟨fun v => Option.map (look v)⟩
instance : Viewed (α × β) := ⟨fun v => Prod.map (look v) (look v)⟩
instance : Viewed (α ⊕ β) := ⟨fun v => Sum.map (look v) (look v)⟩
instance : Viewed Bracketed :=
  ⟨fun v b => ⟨b.leaves.map (Leaf.seen v), b.items.map (Node.seen v), b.close.seen v⟩⟩
instance : Viewed CaseOptions :=
  ⟨fun v o => ⟨o.options.map (Node.seen v), o.commas.map (Leaf.seen v),
    o.default.map (Token.seen v)⟩⟩

variable {v : View}

@[simp] theorem look_token : (look v : Token → Token) = Token.seen v := rfl
@[simp] theorem look_leaf : (look v : Leaf → Leaf) = Leaf.seen v := rfl
@[simp] theorem look_node : (look v : Node → Node) = Node.seen v := rfl
@[simp] theorem look_bool (b : Bool) : look v b = b := rfl
@[simp] theorem look_unit (u : Unit) : look v u = u := rfl
@[simp] theorem look_scope (s : Scope) : look v s = s := rfl
@[simp] theorem look_operator (o : AttributeOperator) : look v o = o := rfl
@[simp] theorem look_list (l : List α) : look v l = l.map (look v) := rfl
@[simp] theorem look_option (o : Option α) : look v o = o.map (look v) := rfl
@[simp] theorem look_prod (a : α) (b : β) : look v (a, b) = (look v a, look v b) := rfl
@[simp] theorem look_inl (a : α) : look v (.inl a : α ⊕ β) = .inl (look v a) := rfl
@[simp] theorem look_inr (b : β) : look v (.inr b : α ⊕ β) = .inr (look v b) := rfl

end

/-! ## Streams -/

/-- The token ends the input, or it stands in the source. -/
def Token.Known (tract : Tract) (t : Token) : Prop :=
  t.kind = .endOfInput ∨ t.LiesIn tract

/-- A token of the kind does not go on with a statement that ended with a brace. -/
structure Parse.Unlinked (k : TokenKind) : Prop where
  elsif : k ≠ .keyword .elsif
  otherwise : k ≠ .keyword .else
  arrow : chainArrow? k = none

namespace TokenStream

variable {tract : Tract} {k : Replay} {s s' : TokenStream}

/-- The tokens stand in the source, and the input ends after them. -/
structure Fit (tract : Tract) (s : TokenStream) : Prop where
  ending : s.last.kind = .endOfInput
  ends : tract.first ≤ s.last.span.start
  located : ∀ t ∈ s.rest, t.LiesIn tract

theorem Fit.current_start (h : s.Fit tract) : tract.first ≤ s.current.span.start := by
  unfold TokenStream.current
  cases hrest : s.rest with
  | nil => exact h.ends
  | cons t ts => exact (h.located t (by rw [hrest]; exact List.mem_cons_self)).begins

theorem Fit.second_start (h : s.Fit tract) : tract.first ≤ s.second.span.start := by
  unfold TokenStream.second
  match hrest : s.rest with
  | [] | [t] => exact h.ends
  | t :: u :: ts =>
    exact (h.located u (by rw [hrest]; exact List.mem_cons_of_mem _ List.mem_cons_self)).begins

theorem Fit.current (h : s.Fit tract) : s.current.Known tract := by
  unfold TokenStream.current
  cases hrest : s.rest with
  | nil => exact .inl h.ending
  | cons t ts => exact .inr (h.located t (by rw [hrest]; exact List.mem_cons_self))

/-- At the end of input the next token ends it. -/
theorem Fit.current_of_nil (hs : s.Fit tract) (hnil : s.rest = []) :
    s.current.kind = .endOfInput := by
  unfold TokenStream.current
  rw [hnil]
  exact hs.ending

@[simp] theorem ofTokens_rest (us : List Token) (t : Token) : (ofTokens (us ++ [t])).rest = us :=
  List.dropLast_concat

@[simp] theorem ofTokens_last (us : List Token) (t : Token) : (ofTokens (us ++ [t])).last = t := by
  simp [ofTokens]

theorem tail_of_nil (h : s.rest = []) : s.tail = s := by
  unfold tail
  rw [h]

theorem tail_rest (s : TokenStream) : s.tail.rest = s.rest.tail := by
  unfold tail
  cases hrest : s.rest with
  | nil => exact hrest
  | cons t ts => rfl

theorem tail_last (s : TokenStream) : s.tail.last = s.last := by
  unfold tail
  split <;> rfl

theorem Fit.tail (h : s.Fit tract) : s.tail.Fit tract where
  ending := by rw [tail_last, h.ending]
  ends := by rw [tail_last]; exact h.ends
  located t ht := h.located t (List.mem_of_mem_tail (tail_rest s ▸ ht))

/-- The second stream has the tokens of the first where they stand elsewhere, and others after
them.  Where others come, the tokens end with a brace or the others begin with one. -/
structure Alike (k : Replay) (s s' : TokenStream) : Prop where
  fit : s.Fit k.toTract
  rest : s'.rest = s.rest.map (Token.seen k.view) ++ k.more
  final : s'.last = k.final
  last : k.ends → k.more = [] ∧ k.final = s.last.seen k.view
  behind : ∀ stop ∈ s'.previousStop, stop ≤ k.source.length + k.shift
  touches : k.Leaves s → s'.touches = s.touches
  closes : ¬ k.ends → ∀ t ∈ s.rest.getLast?,
    t.kind = .symbol .rightBrace ∨ k.following.kind = .symbol .leftBrace
  unlinked : ¬ k.ends → Unlinked k.following.kind

theorem current_seen (hrest : s'.rest = s.rest.map (Token.seen k.view) ++ k.more)
    (hlast : k.ends → k.more = [] ∧ s'.last = s.last.seen k.view) (hs : k.Leaves s) :
    s'.current = s.current.seen k.view := by
  unfold TokenStream.current
  rw [hrest]
  cases hnil : s.rest with
  | nil =>
    obtain ⟨hmore, hlast⟩ := hlast (hs.resolve_right fun hne => hne hnil)
    rw [hmore, hlast]
    rfl
  | cons t ts => rfl

theorem Alike.last_seen (h : s.Alike k s') (hends : k.ends) :
    k.more = [] ∧ s'.last = s.last.seen k.view := by
  obtain ⟨hmore, hfinal⟩ := h.last hends
  exact ⟨hmore, h.final.trans hfinal⟩

theorem Alike.current (h : s.Alike k s') (hs : k.Leaves s) :
    s'.current = s.current.seen k.view := current_seen h.rest h.last_seen hs

/-- Where the tokens end, others come that do not go on with a statement. -/
theorem Alike.follows (h : s.Alike k s') (hs : ¬ k.Leaves s) :
    s.current.kind = .endOfInput ∧ s'.current = k.following ∧ Unlinked k.following.kind := by
  obtain ⟨hends, hrest⟩ := not_or.mp hs
  have hnil := not_not.mp hrest
  refine ⟨h.fit.current_of_nil hnil, ?_, h.unlinked hends⟩
  unfold TokenStream.current
  rw [h.rest, hnil, h.final]
  rfl

/-- The next token looks the same, or the input ends where a token comes that does not go on with a
statement. -/
theorem Alike.current_or (h : s.Alike k s') :
    s'.current = s.current.seen k.view ∨
      (s.current.kind = .endOfInput ∧ s'.current = k.following ∧ Unlinked k.following.kind) :=
  (em (k.Leaves s)).imp h.current h.follows

/-- The tokens that come after the last one begin with a brace. -/
structure OpensAfter (s s' : TokenStream) : Prop where
  single : s.rest.tail = []
  ends : s.second.kind = .endOfInput
  opens : s'.second.kind = .symbol .leftBrace

theorem Alike.second (h : s.Alike k s') (hs : k.Leaves s) :
    s'.second = s.second.seen k.view ∨ s.current.kind = .symbol .rightBrace ∨ s.OpensAfter s' := by
  by_cases hends : k.ends
  · obtain ⟨hmore, hlast⟩ := h.last_seen hends
    unfold TokenStream.second
    rw [h.rest, hmore, hlast]
    match s.rest with
    | [] | [t] | t :: u :: ts => exact .inl (by simp)
  · match hrest : s.rest with
    | [] => exact absurd hrest (hs.resolve_left hends)
    | [t] =>
      have hcurrent : s.current = t := by rw [TokenStream.current, hrest]; rfl
      have hsecond : s.second = s.last := by rw [TokenStream.second, hrest]; rfl
      have hsecond' : s'.second = k.following := by
        rw [TokenStream.second, h.rest, hrest, h.final]
        rfl
      refine .inr ((h.closes hends t (by rw [hrest]; rfl)).imp (fun ht => by rwa [hcurrent])
        fun hopens => ⟨by rw [hrest]; rfl, by rw [hsecond, h.fit.ending], by rwa [hsecond']⟩)
    | t :: u :: ts =>
      left
      unfold TokenStream.second
      rw [h.rest, hrest]
      rfl

theorem Alike.tail (h : s.Alike k s') (hs : k.Leaves s) : s.tail.Alike k s'.tail := by
  cases hrest : s.rest with
  | nil =>
    obtain ⟨hmore, -⟩ := h.last (hs.resolve_right fun hne => hne hrest)
    have hrest' : s'.rest = [] := by rw [h.rest, hrest, hmore]; rfl
    rwa [tail_of_nil hrest, tail_of_nil hrest']
  | cons t ts =>
    have hrest' : s'.rest = t.seen k.view :: (ts.map (Token.seen k.view) ++ k.more) := by
      rw [h.rest, hrest]
      rfl
    have htail : s'.tail.rest = s.tail.rest.map (Token.seen k.view) ++ k.more := by
      rw [tail_rest, tail_rest, hrest, hrest']
      rfl
    refine ⟨h.fit.tail, htail, ?_, ?_, fun stop hstop => ?_, fun hleaves => ?_,
      fun hends u hu => ?_, h.unlinked⟩
    · rw [tail_last, h.final]
    · rw [tail_last]
      exact h.last
    · have hprevious : s'.tail.previousStop = some (t.seen k.view).span.stop := by
        unfold TokenStream.tail
        rw [hrest']
      rw [hprevious] at hstop
      obtain rfl := Option.some.inj hstop
      have ht := h.fit.located t (by rw [hrest]; exact List.mem_cons_self)
      have := ht.located.covers.correct.ends
      rw [Token.seen_span, Replay.view_stop]
      omega
    · have hcurrent : s'.tail.current = s.tail.current.seen k.view :=
        current_seen htail (by rw [tail_last, tail_last]; exact h.last_seen) hleaves
      rw [touches_tail hrest, touches_tail hrest', hcurrent, Token.seen_span, Token.seen_span,
        Replay.view_stop, k.moves.start h.fit.tail.current_start]
      simp
    · refine h.closes hends u ?_
      rw [tail_rest, hrest] at hu
      rw [hrest]
      cases ts with
      | nil => cases hu
      | cons w ws => exact hu

end TokenStream

/-! ## Parsers -/

namespace Parser

variable {α β σ : Type} [Viewed α] [Viewed β] [Viewed σ] {k : Replay} {scope : Scope}
  {s s' r : TokenStream}

/-- Where the first parser answers and leaves a token, the second answers the same elsewhere.  At
the end of input the first moves no further. -/
structure Replays (k : Replay) (p q : Parser α) : Prop where
  keeps : ∀ {scope s a r}, s.Fit k.toTract → Gives p scope s a r →
    r.Fit k.toTract ∧ (s.rest = [] → r = s)
  gives : ∀ {scope s s' a r}, s.Alike k s' → Gives p scope s a r → k.Leaves r →
    ∃ r', Gives q scope s' (look k.view a) r' ∧ r.Alike k r'

/-- The second parser answers what the first does, even if that leaves no token. -/
structure ReplaysWhole (k : Replay) (p q : Parser α) : Prop where
  keeps : ∀ {scope s a r}, s.Fit k.toTract → Gives p scope s a r →
    r.Fit k.toTract ∧ (s.rest = [] → r = s)
  gives : ∀ {scope s s' a r}, s.Alike k s' → Gives p scope s a r →
    ∃ r', Gives q scope s' (look k.view a) r' ∧ r.Alike k r'

/-- So it does, and the first parser does not answer at the end of input. -/
structure Closes (k : Replay) (p q : Parser α) : Prop extends ReplaysWhole k p q where
  starves : ∀ {scope s a r}, s.Fit k.toTract → s.rest = [] → ¬ Gives p scope s a r

/-! ### Composition -/

theorem Replays.pure {a a' : α} (h : a' = look k.view a) :
    Replays k (Pure.pure a) (Pure.pure a') where
  keeps hs hp := by
    obtain ⟨-, rfl⟩ := gives_pure.mp hp
    exact ⟨hs, fun _ => rfl⟩
  gives hs hp _ := by
    obtain ⟨rfl, rfl⟩ := gives_pure.mp hp
    exact ⟨_, gives_pure.mpr ⟨h.symm, rfl⟩, hs⟩

/-- What a run leaves, the runs before it leave. -/
theorem Replays.leaves {p q : Parser α} (h : Replays k p q) {a : α} (hs : s.Fit k.toTract)
    (hp : Gives p scope s a r) (hr : k.Leaves r) : k.Leaves s := by
  by_contra hs'
  obtain ⟨hends, hrest⟩ := not_or.mp hs'
  rw [(h.keeps hs hp).2 (not_not.mp hrest)] at hr
  exact hs' hr

theorem Replays.bind {p q : Parser α} {f g : α → Parser β} (h : Replays k p q)
    (hf : ∀ a, Replays k (f a) (g (look k.view a))) : Replays k (p >>= f) (q >>= g) where
  keeps hs hp := by
    obtain ⟨a, s₁, hp, hfa⟩ := gives_bind.mp hp
    obtain ⟨hs₁, hsame₁⟩ := h.keeps hs hp
    obtain ⟨hr, hsame⟩ := (hf a).keeps hs₁ hfa
    refine ⟨hr, fun hnil => ?_⟩
    rw [hsame₁ hnil] at hsame
    exact hsame hnil
  gives hs hp hleaves := by
    obtain ⟨a, s₁, hp, hfa⟩ := gives_bind.mp hp
    obtain ⟨s₁', hq, hs₁⟩ := h.gives hs hp ((hf a).leaves (h.keeps hs.fit hp).1 hfa hleaves)
    obtain ⟨r', hga, hr⟩ := (hf a).gives hs₁ hfa hleaves
    exact ⟨r', gives_bind.mpr ⟨_, _, hq, hga⟩, hr⟩

theorem Replays.map {p q : Parser α} {f g : α → β} (h : Replays k p q)
    (hf : ∀ a, g (look k.view a) = look k.view (f a)) : Replays k (f <$> p) (g <$> q) := by
  rw [map_eq_pure_bind, map_eq_pure_bind]
  exact h.bind fun a => .pure (hf a)

theorem Replays.ite {c c' : Prop} [Decidable c] [Decidable c'] {p q p' q' : Parser α}
    (hc : c' ↔ c) (hp : Replays k p p') (hq : Replays k q q') :
    Replays k (if c then p else q) (if c' then p' else q') := by
  by_cases h : c
  · rwa [if_pos h, if_pos (hc.mpr h)]
  · rwa [if_neg h, if_neg fun h' => h (hc.mp h')]

theorem Replays.of_never {p q : Parser α} (h : ∀ {scope s a r}, ¬ Gives p scope s a r) :
    Replays k p q where
  keeps _ hp := (h hp).elim
  gives _ hp _ := (h hp).elim

theorem Replays.unexpected {t t' : Token} {wanted wanted' : Wanted} :
    Replays k (Parser.unexpected t wanted : Parser α) (Parser.unexpected t' wanted') :=
  .of_never gives_unexpected

theorem Replays.reject {problem problem' : Problem} {span span' : Span} :
    Replays k (liftM (ManifestTree.reject problem span : Except Failure α) : Parser α)
      (liftM (ManifestTree.reject problem' span' : Except Failure α)) := .of_never gives_reject

theorem Replays.lift {e e' : Except Failure α} (h : ∀ a, e = .ok a → e' = .ok (look k.view a)) :
    Replays k (liftM e : Parser α) (liftM e') where
  keeps hs hp := by
    obtain ⟨-, rfl⟩ := gives_lift.mp hp
    exact ⟨hs, fun _ => rfl⟩
  gives hs hp _ := by
    obtain ⟨he, rfl⟩ := gives_lift.mp hp
    exact ⟨_, gives_lift.mpr ⟨h _ he, rfl⟩, hs⟩

theorem Replays.withBraceBlocks {p q : Parser α} (allowed : Bool) (h : Replays k p q) :
    Replays k (Parser.withBraceBlocks allowed p) (Parser.withBraceBlocks allowed q) where
  keeps hs hp := h.keeps hs (gives_withBraceBlocks.mp hp)
  gives hs hp hr := h.gives hs (gives_withBraceBlocks.mp hp) hr

/-! ### Primitives -/

/-- A parser that answers what it finds at the stream and stays there. -/
theorem Replays.looks {p : Parser α} {f : TokenStream → α}
    (hp : ∀ {scope s a r}, Gives p scope s a r ↔ a = f s ∧ s = r)
    (hf : ∀ {s s'}, s.Alike k s' → k.Leaves s → f s' = look k.view (f s)) : Replays k p p where
  keeps hs h := by
    obtain ⟨-, rfl⟩ := hp.mp h
    exact ⟨hs, fun _ => rfl⟩
  gives hs h hr := by
    obtain ⟨rfl, rfl⟩ := hp.mp h
    exact ⟨_, hp.mpr ⟨(hf hs hr).symm, rfl⟩, hs⟩

/-- A parser that answers what it finds at the stream and consumes a token. -/
theorem Replays.takes {p : Parser α} {c : TokenStream → Prop} {f : TokenStream → α}
    (hp : ∀ {scope s a r}, Gives p scope s a r ↔ c s ∧ a = f s ∧ r = s.tail)
    (hc : ∀ {s s'}, s.Alike k s' → k.Leaves s → c s → c s')
    (hf : ∀ {s s'}, s.Alike k s' → k.Leaves s → f s' = look k.view (f s)) : Replays k p p := by
  have keeps {scope s a r} (hs : s.Fit k.toTract) (h : Gives p scope s a r) :
      r.Fit k.toTract ∧ (s.rest = [] → r = s) := by
    obtain ⟨-, -, rfl⟩ := hp.mp h
    exact ⟨hs.tail, TokenStream.tail_of_nil⟩
  refine ⟨keeps, fun {scope s s' a r} hs h hr => ?_⟩
  have hleaves : k.Leaves s := by
    by_contra hs'
    obtain ⟨hends, hrest⟩ := not_or.mp hs'
    rw [(keeps hs.fit h).2 (not_not.mp hrest)] at hr
    exact hs' hr
  obtain ⟨hcs, rfl, rfl⟩ := hp.mp h
  exact ⟨_, hp.mpr ⟨hc hs hleaves hcs, (hf hs hleaves).symm, rfl⟩, hs.tail hleaves⟩

theorem replays_read : Replays k read read where
  keeps hs h := by
    obtain ⟨-, rfl⟩ := gives_read.mp h
    exact ⟨hs, fun _ => rfl⟩
  gives hs h _ := by
    obtain ⟨rfl, rfl⟩ := gives_read.mp h
    exact ⟨_, gives_read.mpr ⟨rfl, rfl⟩, hs⟩

theorem replays_nextIs (kind : TokenKind) : Replays k (nextIs kind) (nextIs kind) :=
  .looks gives_nextIs fun hs hr => by
    rw [hs.current hr, Token.seen_kind]
    rfl

theorem replays_atSymbol (x : Symbol) : Replays k (atSymbol x) (atSymbol x) :=
  replays_nextIs (.symbol x)

theorem replays_atTouching (x : Symbol) : Replays k (atTouching x) (atTouching x) :=
  .looks gives_atTouching fun hs hr => by
    rw [hs.current hr, Token.seen_kind, hs.touches hr]
    rfl

theorem replays_advance : Replays k advance advance :=
  .takes (c := fun _ => True) (by simp) (fun _ _ _ => trivial) fun hs hr => hs.current hr

theorem replays_advanceLeaf : Replays k advanceLeaf advanceLeaf :=
  .takes (c := fun _ => True) (f := fun s => s.current.leaf) (by simp) (fun _ _ _ => trivial)
    fun hs hr => by
      rw [hs.current hr]
      simp [Token.leaf, Leaf.seen]

theorem replays_expectAny (kinds : List TokenKind) :
    Replays k (expectAny kinds) (expectAny kinds) :=
  .takes gives_expectAny (fun hs hr hk => by rwa [hs.current hr, Token.seen_kind])
    fun hs hr => hs.current hr

theorem replays_expect (kind : TokenKind) : Replays k (expect kind) (expect kind) :=
  replays_expectAny [kind]

theorem replays_expectSymbol (x : Symbol) : Replays k (expectSymbol x) (expectSymbol x) :=
  replays_expect (.symbol x)

/-- The next token is looked at. -/
theorem Replays.current_bind {f g : Token → Parser α}
    (hf : ∀ t, t.Known k.toTract → Replays k (f t) (g (t.seen k.view))) :
    Replays k (current >>= f) (current >>= g) where
  keeps hs hp := by
    obtain ⟨t, s₁, ht, hp⟩ := gives_bind.mp hp
    obtain ⟨rfl, rfl⟩ := gives_current.mp ht
    exact (hf _ hs.current).keeps hs hp
  gives hs hp hr := by
    obtain ⟨t, s₁, ht, hp⟩ := gives_bind.mp hp
    obtain ⟨rfl, rfl⟩ := gives_current.mp ht
    have hfs := hf _ hs.fit.current
    have hleaves := hfs.leaves hs.fit hp hr
    obtain ⟨r', hq, hr'⟩ := hfs.gives hs hp hr
    exact ⟨r', gives_bind.mpr ⟨_, _, gives_current.mpr ⟨(hs.current hleaves).symm, rfl⟩, hq⟩, hr'⟩

/-- A token of a kind is consumed and looked at. -/
theorem Replays.expect_bind {kind : TokenKind} {f g : Token → Parser α}
    (hf : ∀ t, t.Known k.toTract → t.kind = kind → Replays k (f t) (g (t.seen k.view))) :
    Replays k (expect kind >>= f) (expect kind >>= g) where
  keeps hs hp := by
    obtain ⟨t, s₁, ht, hp⟩ := gives_bind.mp hp
    obtain ⟨hk, rfl, rfl⟩ := gives_expect.mp ht
    obtain ⟨hr, hsame⟩ := (hf _ hs.current hk).keeps hs.tail hp
    refine ⟨hr, fun hnil => ?_⟩
    rw [TokenStream.tail_of_nil hnil] at hsame
    exact hsame hnil
  gives hs hp hr := by
    obtain ⟨t, s₁, ht, hp⟩ := gives_bind.mp hp
    obtain ⟨hk, rfl, rfl⟩ := gives_expect.mp ht
    have hfs := hf _ hs.fit.current hk
    have hleaves := (replays_expect kind).leaves hs.fit ht (hfs.leaves hs.fit.tail hp hr)
    obtain ⟨r', hq, hr'⟩ := hfs.gives (hs.tail hleaves) hp hr
    refine ⟨r', gives_bind.mpr ⟨_, _, gives_expect.mpr ⟨?_, (hs.current hleaves).symm, rfl⟩, hq⟩, hr'⟩
    rwa [hs.current hleaves, Token.seen_kind]

/-- From a stream of one token at most the parser leaves none. -/
def Drains (k : Replay) (p : Parser α) : Prop :=
  ∀ {scope s a r}, s.Fit k.toTract → s.rest.tail = [] → Gives p scope s a r → r.rest = []

/-- The next two tokens are looked at.  The second may be another where the first is the last brace
of the tokens, or where a brace comes after it; but then a parser that leaves none will do. -/
theorem Replays.peek_or {f g : Token → Token → Parser α}
    (hf : ∀ t next next', t.Known k.toTract → (k.first : Int) ≤ next.span.start →
      next' = next.seen k.view ∨ t.kind = .symbol .rightBrace →
        Replays k (f t next) (g (t.seen k.view) next'))
    (hopens : ∀ t next next', t.Known k.toTract → (k.first : Int) ≤ next.span.start →
      next.kind = .endOfInput → next'.kind = .symbol .leftBrace →
        Replays k (f t next) (g (t.seen k.view) next') ∨ Drains k (f t next)) :
    Replays k (current >>= fun t => second >>= f t) (current >>= fun t => second >>= g t) where
  keeps hs hp := by
    obtain ⟨t, s₁, ht, hp⟩ := gives_bind.mp hp
    obtain ⟨rfl, rfl⟩ := gives_current.mp ht
    obtain ⟨next, s₂, hnext, hp⟩ := gives_bind.mp hp
    obtain ⟨rfl, rfl⟩ := gives_second.mp hnext
    exact (hf _ _ _ hs.current hs.second_start (.inl rfl)).keeps hs hp
  gives {_ s s' _ _} hs hp hr := by
    obtain ⟨t, s₁, ht, hp⟩ := gives_bind.mp hp
    obtain ⟨rfl, rfl⟩ := gives_current.mp ht
    obtain ⟨next, s₂, hnext, hp⟩ := gives_bind.mp hp
    obtain ⟨rfl, rfl⟩ := gives_second.mp hnext
    have hf' (h) := hf s.current s.second s'.second hs.fit.current hs.fit.second_start h
    have hleaves :=
      (hf _ _ _ hs.fit.current hs.fit.second_start (.inl rfl)).leaves hs.fit hp hr
    have hboth : Replays k (f s.current s.second) (g (s.current.seen k.view) s'.second) := by
      rcases hs.second hleaves with h | h | h
      · exact hf' (.inl h)
      · exact hf' (.inr h)
      · refine (hopens _ _ _ hs.fit.current hs.fit.second_start h.ends h.opens).elim id
          fun hdrains => ?_
        -- Where no token is left the input ends with these, and no brace comes after them.
        have hends : k.ends := hr.resolve_right fun hne => hne (hdrains hs.fit h.single hp)
        obtain ⟨hmore, hlast⟩ := hs.last_seen hends
        have hsecond : s'.second = s.second.seen k.view := by
          unfold TokenStream.second
          rw [hs.rest, hmore, hlast, List.append_nil, ← List.map_tail, h.single]
          rfl
        exact hf' (.inl hsecond)
    obtain ⟨r', hq, hr'⟩ := hboth.gives hs hp hr
    refine ⟨r', gives_bind.mpr ⟨_, _, gives_current.mpr ⟨(hs.current hleaves).symm, rfl⟩, ?_⟩, hr'⟩
    exact gives_bind.mpr ⟨_, _, gives_second.mpr ⟨rfl, rfl⟩, hq⟩

theorem Replays.peek {f g : Token → Token → Parser α}
    (hf : ∀ t next next', t.Known k.toTract → (k.first : Int) ≤ next.span.start →
      next' = next.seen k.view ∨ t.kind = .symbol .rightBrace ∨
        (next.kind = .endOfInput ∧ next'.kind = .symbol .leftBrace) →
          Replays k (f t next) (g (t.seen k.view) next')) :
    Replays k (current >>= fun t => second >>= f t) (current >>= fun t => second >>= g t) :=
  .peek_or (fun t next next' ht hs h => hf t next next' ht hs (h.imp_right .inl))
    fun t next next' ht hs hend hopen => .inl (hf t next next' ht hs (.inr (.inr ⟨hend, hopen⟩)))

/-! ### Loops -/

theorem replays_iterate {step step' : σ → Parser (σ ⊕ α)}
    (hstep : ∀ x, Replays k (step x) (step' (look k.view x))) {n m : Nat} (hn : n ≤ m) (x : σ) :
    Replays k (iterate step n x) (iterate step' m (look k.view x)) := by
  induction n generalizing m x with
  | zero => exact .of_never gives_fail
  | succ n ih =>
    obtain ⟨m, rfl⟩ := Nat.exists_eq_succ_of_ne_zero (Nat.ne_zero_of_lt hn)
    refine (hstep x).bind fun y => ?_
    cases y with
    | inl y => exact ih (Nat.le_of_succ_le_succ hn) y
    | inr a => exact .pure rfl

omit [Viewed α] [Viewed σ] in
theorem gives_repeatFrom {step : σ → Parser (σ ⊕ α)} {x : σ} {a : α} :
    Gives (repeatFrom step x) scope s a r ↔
      Gives (iterate step (s.rest.length + 1) x) scope s a r := by
  simp only [repeatFrom, gives_bind, gives_get]
  constructor
  · rintro ⟨_, _, ⟨rfl, rfl⟩, h⟩
    exact h
  · exact fun h => ⟨s, s, ⟨rfl, rfl⟩, h⟩

theorem Replays.repeatFrom {step step' : σ → Parser (σ ⊕ α)}
    (hstep : ∀ x, Replays k (step x) (step' (look k.view x))) {x x' : σ}
    (hx : x' = look k.view x) :
    Replays k (Parser.repeatFrom step x) (Parser.repeatFrom step' x') where
  keeps hs hp := (replays_iterate hstep (Nat.le_refl _) x).keeps hs (gives_repeatFrom.mp hp)
  gives {scope s s' a r} hs hp hr := by
    have hlength : s.rest.length + 1 ≤ s'.rest.length + 1 := by
      rw [hs.rest, List.length_append, List.length_map]
      omega
    obtain ⟨r', hq, hr'⟩ := (replays_iterate hstep hlength x).gives hs (gives_repeatFrom.mp hp) hr
    rw [hx]
    exact ⟨r', gives_repeatFrom.mpr hq, hr'⟩

variable {closes : TokenKind → Bool}

theorem Replays.untilClosed {item item' : σ → Parser (α × σ)}
    (hitem : ∀ x, Replays k (item x) (item' (look k.view x))) {x x' : σ}
    (hx : x' = look k.view x) :
    Replays k (Parser.untilClosed closes item x) (Parser.untilClosed closes item' x') := by
  refine .repeatFrom (fun ⟨items, x⟩ => ?_) (by simp [hx])
  refine .current_bind fun t _ => .ite (by rw [Token.seen_kind]) (.pure (by simp)) ?_
  exact (hitem x).bind fun ⟨a, y⟩ => .pure (by simp)

theorem Replays.commaListWith {item item' : σ → Parser (α × σ)}
    (hitem : ∀ x, Replays k (item x) (item' (look k.view x))) {x x' : σ}
    (hx : x' = look k.view x) :
    Replays k (Parser.commaListWith closes item x) (Parser.commaListWith closes item' x') := by
  refine .repeatFrom (fun ⟨items, commas, x⟩ => ?_) (by simp [hx])
  refine .current_bind fun t _ => .ite (by rw [Token.seen_kind]) (.pure (by simp)) ?_
  refine (hitem x).bind fun ⟨a, y⟩ => (replays_atSymbol .comma).bind fun b => .ite Iff.rfl ?_ ?_
  · exact replays_advanceLeaf.bind fun l => .pure (by simp)
  · exact .pure (by simp)

theorem Replays.commaList {item item' : Parser α} (hitem : Replays k item item') :
    Replays k (Parser.commaList closes item) (Parser.commaList closes item') := by
  refine .commaListWith (fun _ => ?_) rfl
  exact hitem.bind fun a => .pure (by simp)

theorem Replays.commaSeparated {item item' : Parser α} (hitem : Replays k item item') :
    Replays k (Parser.commaSeparated item) (Parser.commaSeparated item') := by
  refine hitem.bind fun a => .repeatFrom (fun ⟨items, commas⟩ => ?_) (by simp)
  refine (replays_atSymbol .comma).bind fun b => .ite Iff.rfl ?_ (.pure (by simp))
  exact replays_advanceLeaf.bind fun l => hitem.bind fun b => .pure (by simp)

/-! ### Runs that leave nothing -/

theorem ReplaysWhole.replays {p q : Parser α} (h : ReplaysWhole k p q) : Replays k p q :=
  ⟨h.keeps, fun hs hp _ => h.gives hs hp⟩

theorem ReplaysWhole.pure {a a' : α} (h : a' = look k.view a) :
    ReplaysWhole k (Pure.pure a) (Pure.pure a') where
  keeps := (Replays.pure h).keeps
  gives hs hp := by
    obtain ⟨rfl, rfl⟩ := gives_pure.mp hp
    exact ⟨_, gives_pure.mpr ⟨h.symm, rfl⟩, hs⟩

theorem ReplaysWhole.bind {p q : Parser α} {f g : α → Parser β} (h : ReplaysWhole k p q)
    (hf : ∀ a, ReplaysWhole k (f a) (g (look k.view a))) : ReplaysWhole k (p >>= f) (q >>= g) where
  keeps := (h.replays.bind fun a => (hf a).replays).keeps
  gives hs hp := by
    obtain ⟨a, s₁, hp, hfa⟩ := gives_bind.mp hp
    obtain ⟨s₁', hq, hs₁⟩ := h.gives hs hp
    obtain ⟨r', hga, hr⟩ := (hf a).gives hs₁ hfa
    exact ⟨r', gives_bind.mpr ⟨_, _, hq, hga⟩, hr⟩

theorem ReplaysWhole.ite {c c' : Prop} [Decidable c] [Decidable c'] {p q p' q' : Parser α}
    (hc : c' ↔ c) (hp : ReplaysWhole k p p') (hq : ReplaysWhole k q q') :
    ReplaysWhole k (if c then p else q) (if c' then p' else q') := by
  by_cases h : c
  · rwa [if_pos h, if_pos (hc.mpr h)]
  · rwa [if_neg h, if_neg fun h' => h (hc.mp h')]

/-- A parser is replayed before one that reads a token. -/
theorem Replays.bind_closes {p q : Parser α} {f g : α → Parser β} (h : Replays k p q)
    (hf : ∀ a, Closes k (f a) (g (look k.view a))) : Closes k (p >>= f) (q >>= g) where
  keeps := (h.bind fun a => (hf a).replays).keeps
  gives hs hp := by
    obtain ⟨a, s₁, hp, hfa⟩ := gives_bind.mp hp
    have hs₁ := (h.keeps hs.fit hp).1
    obtain ⟨s₁', hq, hs₁⟩ := h.gives hs hp (.inr fun hnil => (hf a).starves hs₁ hnil hfa)
    obtain ⟨r', hga, hr⟩ := (hf a).gives hs₁ hfa
    exact ⟨r', gives_bind.mpr ⟨_, _, hq, hga⟩, hr⟩
  starves hs hnil hp := by
    obtain ⟨a, s₁, hp, hfa⟩ := gives_bind.mp hp
    obtain ⟨hs₁, hsame⟩ := h.keeps hs hp
    exact (hf a).starves hs₁ (hsame hnil ▸ hnil) hfa

theorem Closes.bind {p q : Parser α} {f g : α → Parser β} (h : Closes k p q)
    (hf : ∀ a, ReplaysWhole k (f a) (g (look k.view a))) : Closes k (p >>= f) (q >>= g) where
  toReplaysWhole := h.toReplaysWhole.bind hf
  starves hs hnil hp := by
    obtain ⟨a, s₁, hp, -⟩ := gives_bind.mp hp
    exact h.starves hs hnil hp

theorem Closes.ite {c c' : Prop} [Decidable c] [Decidable c'] {p q p' q' : Parser α}
    (hc : c' ↔ c) (hp : Closes k p p') (hq : Closes k q q') :
    Closes k (if c then p else q) (if c' then p' else q') := by
  by_cases h : c
  · rwa [if_pos h, if_pos (hc.mpr h)]
  · rwa [if_neg h, if_neg fun h' => h (hc.mp h')]

theorem Closes.of_never {p q : Parser α} (h : ∀ {scope s a r}, ¬ Gives p scope s a r) :
    Closes k p q where
  keeps _ hp := (h hp).elim
  gives _ hp := (h hp).elim
  starves _ _ hp := h hp

/-- Parsers that answer what two others do. -/
theorem Closes.congr {p q p' q' : Parser α} (h : Closes k p q)
    (hp : ∀ {scope s a r}, Gives p' scope s a r ↔ Gives p scope s a r)
    (hq : ∀ {scope s a r}, Gives q' scope s a r ↔ Gives q scope s a r) : Closes k p' q' where
  keeps hs ha := h.keeps hs (hp.mp ha)
  gives hs ha := by
    obtain ⟨r', ha', hr⟩ := h.gives hs (hp.mp ha)
    exact ⟨r', hq.mpr ha', hr⟩
  starves hs hnil ha := h.starves hs hnil (hp.mp ha)

/-- Where the end of input comes and no other token, a token that is due is there in both. -/
theorem closes_expectSymbol (x : Symbol) : Closes k (expectSymbol x) (expectSymbol x) := by
  have starves {scope s t r} (hs : s.Fit k.toTract) (hnil : s.rest = []) :
      ¬ Gives (expectSymbol x) scope s t r := fun hp => by
    have hk := (gives_expectSymbol.mp hp).1
    rw [hs.current_of_nil hnil] at hk
    cases hk
  refine ⟨⟨(replays_expectSymbol x).keeps, fun {scope s s' t r} hs hp => ?_⟩, starves⟩
  have hleaves : k.Leaves s := .inr fun hnil => starves hs.fit hnil hp
  obtain ⟨hk, rfl, rfl⟩ := gives_expectSymbol.mp hp
  refine ⟨_, gives_expectSymbol.mpr ⟨?_, (hs.current hleaves).symm, rfl⟩, hs.tail hleaves⟩
  rwa [hs.current hleaves, Token.seen_kind]

/-! ### Parsers that read a token -/

/-- The second parser replays the first, which leaves no token where there is one. -/
structure Takes (k : Replay) (p q : Parser α) : Prop extends Replays k p q where
  drains : Drains k p

/-- Where there is a token the second parser answers what the first does, even if that leaves
none. -/
structure TakesWhole (k : Replay) (p q : Parser α) : Prop extends Takes k p q where
  whole : ∀ {scope s s' a r}, s.Alike k s' → k.Leaves s → Gives p scope s a r →
    ∃ r', Gives q scope s' (look k.view a) r' ∧ r.Alike k r'

theorem Takes.of_never {p q : Parser α} (h : ∀ {scope s a r}, ¬ Gives p scope s a r) :
    Takes k p q := ⟨.of_never h, fun _ _ hp => (h hp).elim⟩

theorem Takes.advance_bind {f g : Token → Parser α}
    (hf : ∀ t, Replays k (f t) (g (t.seen k.view))) : Takes k (advance >>= f) (advance >>= g) where
  toReplays := replays_advance.bind hf
  drains hs htail h := by
    obtain ⟨t, s₁, ht, h⟩ := gives_bind.mp h
    obtain ⟨rfl, rfl⟩ := gives_advance.mp ht
    rw [← TokenStream.tail_rest] at htail
    rwa [((hf _).keeps hs.tail h).2 htail]

theorem Takes.bind {p q : Parser α} {f g : α → Parser β} (h : Takes k p q)
    (hf : ∀ a, Replays k (f a) (g (look k.view a))) : Takes k (p >>= f) (q >>= g) where
  toReplays := h.toReplays.bind hf
  drains hs htail hp := by
    obtain ⟨a, s₁, hp, hfa⟩ := gives_bind.mp hp
    have hnil := h.drains hs htail hp
    rwa [((hf a).keeps (h.keeps hs hp).1 hfa).2 hnil]

theorem Takes.current_bind {f g : Token → Parser α}
    (hf : ∀ t, t.Known k.toTract → Takes k (f t) (g (t.seen k.view))) :
    Takes k (current >>= f) (current >>= g) where
  toReplays := .current_bind fun t ht => (hf t ht).toReplays
  drains hs htail hp := by
    obtain ⟨t, s₁, ht, hp⟩ := gives_bind.mp hp
    obtain ⟨rfl, rfl⟩ := gives_current.mp ht
    exact (hf _ hs.current).drains hs htail hp

theorem TakesWhole.advance_bind {f g : Token → Parser α}
    (hf : ∀ t, ReplaysWhole k (f t) (g (t.seen k.view))) :
    TakesWhole k (advance >>= f) (advance >>= g) where
  toTakes := .advance_bind fun t => (hf t).replays
  whole hs hleaves hp := by
    obtain ⟨t, s₁, ht, hp⟩ := gives_bind.mp hp
    obtain ⟨rfl, rfl⟩ := gives_advance.mp ht
    obtain ⟨r', hq, hr⟩ := (hf _).gives (hs.tail hleaves) hp
    exact ⟨r', gives_bind.mpr ⟨_, _, gives_advance.mpr ⟨(hs.current hleaves).symm, rfl⟩, hq⟩, hr⟩

theorem Closes.current_bind {f g : Token → Parser α}
    (hf : ∀ t, t.Known k.toTract → Closes k (f t) (g (t.seen k.view))) :
    Closes k (current >>= f) (current >>= g) where
  keeps := (Replays.current_bind fun t ht => (hf t ht).replays).keeps
  gives hs hp := by
    obtain ⟨t, s₁, ht, hp⟩ := gives_bind.mp hp
    obtain ⟨rfl, rfl⟩ := gives_current.mp ht
    have hfs := hf _ hs.fit.current
    have hleaves : k.Leaves _ := .inr fun hnil => hfs.starves hs.fit hnil hp
    obtain ⟨r', hq, hr'⟩ := hfs.gives hs hp
    exact ⟨r', gives_bind.mpr ⟨_, _, gives_current.mpr ⟨(hs.current hleaves).symm, rfl⟩, hq⟩, hr'⟩
  starves hs hnil hp := by
    obtain ⟨t, s₁, ht, hp⟩ := gives_bind.mp hp
    obtain ⟨rfl, rfl⟩ := gives_current.mp ht
    exact (hf _ hs.current).starves hs hnil hp

/-- A token that may not come after the tokens is due in both or in neither. -/
theorem replaysWhole_nextIs {kind : TokenKind} (hend : kind ≠ .endOfInput)
    (hkind : Unlinked k.following.kind → k.following.kind ≠ kind) :
    ReplaysWhole k (nextIs kind) (nextIs kind) where
  keeps := (replays_nextIs kind).keeps
  gives hs hp := by
    obtain ⟨rfl, rfl⟩ := gives_nextIs.mp hp
    refine ⟨_, gives_nextIs.mpr ⟨?_, rfl⟩, hs⟩
    rw [look_bool, decide_eq_decide]
    rcases hs.current_or with h | ⟨h, h', hunlinked⟩
    · rw [h, Token.seen_kind]
    · rw [h, h']
      exact ⟨fun heq => (hend heq.symm).elim, fun heq => (hkind hunlinked heq).elim⟩

theorem replaysWhole_iterate {step step' : σ → Parser (σ ⊕ α)}
    (hstep : ∀ x, ReplaysWhole k (step x) (step' (look k.view x))) {n m : Nat} (hn : n ≤ m)
    (x : σ) : ReplaysWhole k (iterate step n x) (iterate step' m (look k.view x)) := by
  induction n generalizing m x with
  | zero => exact (Closes.of_never gives_fail).toReplaysWhole
  | succ n ih =>
    obtain ⟨m, rfl⟩ := Nat.exists_eq_succ_of_ne_zero (Nat.ne_zero_of_lt hn)
    refine (hstep x).bind fun y => ?_
    cases y with
    | inl y => exact ih (Nat.le_of_succ_le_succ hn) y
    | inr a => exact .pure rfl

theorem ReplaysWhole.repeatFrom {step step' : σ → Parser (σ ⊕ α)}
    (hstep : ∀ x, ReplaysWhole k (step x) (step' (look k.view x))) {x x' : σ}
    (hx : x' = look k.view x) :
    ReplaysWhole k (Parser.repeatFrom step x) (Parser.repeatFrom step' x') where
  keeps := (Replays.repeatFrom (fun x => (hstep x).replays) hx).keeps
  gives {scope s s' a r} hs hp := by
    have hlength : s.rest.length + 1 ≤ s'.rest.length + 1 := by
      rw [hs.rest, List.length_append, List.length_map]
      omega
    obtain ⟨r', hq, hr'⟩ := (replaysWhole_iterate hstep hlength x).gives hs (gives_repeatFrom.mp hp)
    rw [hx]
    exact ⟨r', gives_repeatFrom.mpr hq, hr'⟩

/-- The next token is looked at, or the end of input where a token comes that does not go on with a
statement. -/
theorem ReplaysWhole.current_bind {f g : Token → Parser α}
    (hf : ∀ t t', t' = t.seen k.view ∨
      (t.kind = .endOfInput ∧ t' = k.following ∧ Unlinked k.following.kind) →
        ReplaysWhole k (f t) (g t')) : ReplaysWhole k (current >>= f) (current >>= g) where
  keeps := (Replays.current_bind fun t _ => (hf t _ (.inl rfl)).replays).keeps
  gives hs hp := by
    obtain ⟨t, s₁, ht, hp⟩ := gives_bind.mp hp
    obtain ⟨rfl, rfl⟩ := gives_current.mp ht
    obtain ⟨r', hq, hr'⟩ := (hf _ _ hs.current_or).gives hs hp
    exact ⟨r', gives_bind.mpr ⟨_, _, gives_current.mpr ⟨rfl, rfl⟩, hq⟩, hr'⟩

/-- Items up to a token that does not go on with a statement, or to the end of input. -/
theorem ReplaysWhole.untilClosed {item item' : σ → Parser (α × σ)}
    (hend : closes .endOfInput = true) (hcloses : ∀ {kind}, Unlinked kind → closes kind = true)
    (hitem : ∀ x, Closes k (item x) (item' (look k.view x))) {x x' : σ}
    (hx : x' = look k.view x) :
    ReplaysWhole k (Parser.untilClosed closes item x) (Parser.untilClosed closes item' x') := by
  refine .repeatFrom (fun ⟨items, x⟩ => ?_) (by simp [hx])
  refine .current_bind fun t t' ht => .ite ?_ (.pure (by simp)) ?_
  · rcases ht with rfl | ⟨h, rfl, hunlinked⟩
    · rw [Token.seen_kind]
    · rw [h, hend, hcloses hunlinked]
  · exact (hitem x).toReplaysWhole.bind fun ⟨a, y⟩ => .pure (by simp)

end Parser

end ManifestTree
