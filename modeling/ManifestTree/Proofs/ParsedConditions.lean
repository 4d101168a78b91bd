import ManifestTree.Proofs.BraceBlocks
import ManifestTree.Proofs.ComposedManifests
import ManifestTree.Proofs.ReplayedConditions

/-!
# Conditions parse as expressions

An expression between the keyword of a conditional and a body on the next line is its condition, and
is parsed there as it is alone.  After the keyword a slash may open a regular expression as at the
start of a source, and the brace that opens the body is taken for nothing else unless the expression
could take it for a block of its own.
-/

namespace ManifestTree

open Parse ManifestTree.Parser

/-! ## Expressions as statements -/

namespace Parser

variable {α β : Type}

/-- All answers of the parser are as in `Q`. -/
structure Answers (p : Parser α) (Q : α → Prop) : Prop where
  gives : ∀ {scope s a r}, Gives p scope s a r → Q a

theorem Answers.pure {a : α} {Q : α → Prop} (h : Q a) : Answers (Pure.pure a) Q where
  gives ha := by
    obtain ⟨rfl, -⟩ := gives_pure.mp ha
    exact h

theorem Answers.bind {p : Parser α} {f : α → Parser β} {Q : β → Prop}
    (hf : ∀ a, Answers (f a) Q) : Answers (p >>= f) Q where
  gives h := by
    obtain ⟨a, s₁, -, h⟩ := gives_bind.mp h
    exact (hf a).gives h

theorem Answers.ite {c : Prop} [Decidable c] {p q : Parser α} {Q : α → Prop} (hp : Answers p Q)
    (hq : Answers q Q) : Answers (if c then p else q) Q := by
  split
  · exact hp
  · exact hq

theorem Answers.of_never {p : Parser α} {Q : α → Prop}
    (h : ∀ {scope s a r}, ¬ Gives p scope s a r) : Answers p Q := ⟨fun hp => (h hp).elim⟩

end Parser

namespace Parse

variable {g : Grammar} {scope : Scope} {s r : TokenStream} {n : Node}

/-- The node is no statement expression. -/
def NoExpression (n : Node) : Prop := ¬ Place.statementExpression.kinds.contains n.kind

theorem resourceCall_other (g : Grammar) : Answers (resourceCall g) NoExpression := by
  simp only [resourceCall, ite_bind]
  refine .bind fun _ => .bind fun _ => .bind fun _ => .ite (.of_never gives_unexpected) ?_
  refine .bind fun _ => .bind fun _ => .bind fun _ => .bind fun _ => ?_
  refine .ite (.of_never gives_reject) ?_
  exact .bind fun _ => .pure Bool.false_ne_true

/-- Only what expressions are read by makes an expression. -/
theorem construct_other (g : Grammar) (kind next : TokenKind) :
    Answers (construct g kind next) NoExpression ∨
      construct g kind next = command g Operator.commandRank := by
  have hcomposition (verb : CompositionVerb) : Answers (composition g verb) NoExpression :=
    .bind fun _ => .bind fun _ => .pure (by cases verb <;> exact Bool.false_ne_true)
  have hdeclaration (keyword : DeclarationKeyword) : Answers (declaration g keyword) NoExpression :=
    .bind fun _ => .bind fun _ => .bind fun _ => .bind fun _ => .bind fun _ =>
      .pure (by cases keyword <;> exact Bool.false_ne_true)
  unfold construct
  split
  · exact .inl (.bind fun _ => .bind fun _ => .bind fun _ => .bind fun _ => .bind fun _ =>
      .pure Bool.false_ne_true)
  · exact .inl (.bind fun _ => .bind fun _ => .bind fun _ => .bind fun _ =>
      .pure Bool.false_ne_true)
  · exact .inl (.bind fun _ => .bind fun _ => .bind fun _ => .bind fun _ => .bind fun _ =>
      .pure Bool.false_ne_true)
  · exact .inl (hcomposition _)
  · exact .inl (hcomposition _)
  · exact .inl (hcomposition _)
  · exact .inl (.ite (resourceCall_other g) (hdeclaration _))
  · exact .inl (hdeclaration _)
  · exact .inl (hdeclaration _)
  · exact .inl (.bind fun _ => .bind fun _ => .bind fun _ => .bind fun _ =>
      .pure Bool.false_ne_true)
  · refine .inl ?_
    simp only [functionDeclaration, ite_bind]
    exact .bind fun _ => .bind fun _ => .bind fun _ => .bind fun _ => .bind fun _ => .bind fun _ =>
      .bind fun _ => .pure Bool.false_ne_true
  · exact .inl (.bind fun _ => .bind fun _ => .bind fun _ => .pure Bool.false_ne_true)
  · split
    · exact .inl (resourceCall_other g)
    split
    · exact .inl (.bind fun _ => .bind fun _ => .bind fun _ => .bind fun _ =>
        .pure Bool.false_ne_true)
    · exact .inr rfl

/-- A statement that is an expression is read as one. -/
theorem statement_command (h : Gives (statement g) scope s n r)
    (hn : Place.statementExpression.kinds.contains n.kind) :
    Gives (command g Operator.commandRank) scope s n r := by
  obtain ⟨first, s₁, hfirst, h⟩ := gives_bind.mp h
  obtain ⟨rfl, rfl⟩ : n = first ∧ r = s₁ := by
    rcases gives_ite.mp h with ⟨-, h⟩ | ⟨-, h⟩
    · obtain ⟨hsame, hr, -⟩ := chain_gives_same h (by
        intro hk
        rw [hk] at hn
        cases hn)
      exact ⟨hsame, hr⟩
    · obtain ⟨rfl, rfl⟩ := gives_pure.mp h
      exact ⟨rfl, rfl⟩
  simp only [unchained_eq, gives_bind, gives_current, gives_second] at hfirst
  obtain ⟨_, _, ⟨rfl, rfl⟩, _, _, ⟨rfl, rfl⟩, h⟩ := hfirst
  rcases construct_other g s.current.kind s.second.kind with hother | hcommand
  · exact absurd hn (hother.gives h)
  · rwa [hcommand] at h

end Parse

/-! ## The scan of a conditional -/

/-- A keyword at the start of a source. -/
def Token.guard (word : Text) (keyword : Keyword) : Token :=
  .mk (.keyword keyword) word ⟨0, word.length, 1, 1⟩ .plain

/-- The scan of a source at a cursor, where it has read a keyword. -/
def ScanState.guarded (word : Text) (keyword : Keyword) (c : Cursor) : ScanState :=
  { ScanState.start none c with
    last := some (.keyword keyword)
    tokens := [Token.guard word keyword] }

/-- The word is read as the keyword where a blank comes after it, and a slash after it may open a
regular expression. -/
structure ScanState.Guards (word : Text) (keyword : Keyword) : Prop where
  nonempty : 0 < word.length
  place : Position.start.after word = ⟨word.length, 1, word.length + 1⟩
  value : (TokenKind.keyword keyword).endsValue = false
  reads : ∀ nested cs,
      (ScanState.start none (Cursor.ofSource (word ++ .char ' ' :: cs))).step nested =
    .ok (some (ScanState.guarded word keyword ⟨⟨word.length, 1, word.length + 1⟩, .char ' ' :: cs⟩))

theorem ScanState.guards_if : Guards (Text.ofString "if") .if :=
  ⟨by decide, rfl, rfl, fun _ _ => rfl⟩

theorem ScanState.guards_unless : Guards (Text.ofString "unless") .unless :=
  ⟨by decide, rfl, rfl, fun _ _ => rfl⟩

/-- The tokens of an empty body at a place. -/
def Token.bracesAt (p : Position) : List Token :=
  [.mk (.symbol .leftBrace) [.char '\x7b'] (Span.sized p 1) .plain,
    .mk (.symbol .rightBrace) [.char '\x7d']
      (Span.sized ⟨p.offset + 2, p.line, p.column + 2⟩ 1) .plain]

namespace ScanState

variable {nested : NestedScan} {s : ScanState}

/-- An opening brace is read as a symbol. -/
theorem step_leftBrace {cs : Text} (hc : s.cursor.rest = .char '\x7b' :: cs) :
    s.step nested = .ok (some (s.emit (.symbol .leftBrace) (s.cursor.skip 1) .plain)) := by
  have hregex : s.regexLength? = none := by
    unfold regexLength?
    rw [hc]
    split <;> rfl
  have hword : s.readToken nested '\x7b' =
      .ok (s.emit (.symbol .leftBrace) (s.cursor.skip 1) .plain) := by
    show s.readWord '\x7b' = _
    unfold readWord readSymbol
    rw [hregex, hc]
    rfl
  have hbrace : s.atClosingBrace '\x7b' = false := by simp [atClosingBrace]
  unfold step
  rw [hc]
  show (if s.atClosingBrace '\x7b' = true then Except.ok none
    else some <$> s.readToken nested '\x7b') = _
  rw [hbrace, hword]
  rfl

/-- The token of one character at a cursor. -/
theorem emit_single {kind : TokenKind} {c : CodePoint} {cs : Text} (hc : s.cursor.rest = c :: cs) :
    (s.emit kind (s.cursor.skip 1) .plain).tokens =
      .mk kind [c] (Span.sized s.cursor.pos 1) .plain :: s.tokens := by
  have htake : s.cursor.rest.take 1 = [c] := by rw [hc]; rfl
  rw [emit_skip kind (by rw [hc]; exact Nat.succ_pos _), htake]

theorem run_emptyBody {p : Position} {fuel : Nat} (ho : s.opener = none)
    (hidle : s.queue.waiting = []) (hc : s.cursor = ⟨p, Text.ofString "\x7b \x7d"⟩)
    (hfuel : 3 < fuel) :
    ∃ r, run fuel s = .ok (attachBodies (s.tokens.reverse ++ Token.bracesAt p) s.bodies ++
      [Token.endAt ⟨p.offset + 3, p.line, p.column + 3⟩], r) ∧ r.comments = s.comments := by
  obtain ⟨m, rfl⟩ : ∃ m, fuel = m + 1 + 1 + 1 + 1 := ⟨fuel - 4, by omega⟩
  let s₁ := s.emit (.symbol .leftBrace) (s.cursor.skip 1) .plain
  let s₂ := s₁.blank
  let r := s₂.emit (.symbol .rightBrace) (s₂.cursor.skip 1) .plain
  have hrest : s.cursor.rest = Text.ofString "\x7b \x7d" := by rw [hc]
  have hcursor : s₂.cursor = ⟨⟨p.offset + 2, p.line, p.column + 2⟩, [.char '\x7d']⟩ := by
    show (s.cursor.skip 1).skip 1 = _
    rw [hc]
    rfl
  have hopens (nested : NestedScan) : s.step nested = .ok (some s₁) := step_leftBrace hrest
  have hblank (nested : NestedScan) : s₁.step nested = .ok (some s₂) := by
    have hrest₁ : s₁.cursor.rest = .char ' ' :: [.char '\x7d'] := by
      show (s.cursor.skip 1).rest = _
      rw [hc]
      rfl
    exact step_gap hrest₁ (.inr (.inl rfl)) hidle
  have hcloses (nested : NestedScan) : s₂.step nested = .ok (some r) := by
    rw [step_brace (by rw [hcursor]), if_neg]
    rintro ⟨hopener, -⟩
    rw [show s₂.opener = none from ho] at hopener
    cases hopener
  have htokens : r.tokens.reverse = s.tokens.reverse ++ Token.bracesAt p := by
    have hright : r.tokens = _ :: s₁.tokens := emit_single (by rw [hcursor])
    have hleft : s₁.tokens = _ :: s.tokens := emit_single hrest
    rw [hright, hleft, hcursor, hc, List.reverse_cons, List.reverse_cons, List.append_assoc]
    rfl
  have hend : r.cursor = ⟨⟨p.offset + 3, p.line, p.column + 3⟩, []⟩ := by
    show s₂.cursor.skip 1 = _
    rw [hcursor]
    rfl
  refine ⟨r, ?_, rfl⟩
  rw [run_of_step (hopens _), run_of_step (hblank _), run_of_step (hcloses _),
    run_stops (a := r) ho hidle (by rw [hend]) (show 0 < m + 1 from Nat.succ_pos m), htokens, hend]
  rfl

/-- Tokens before and after those of a source that need no bodies. -/
theorem Ended.attached_between {source : Text} {tokens comments : List Token}
    {r : ScanState} {t : Token} (h : Ended source tokens comments r) (v : View)
    (back : List Token) (ht : t.kind ≠ .heredoc) :
    attachBodies ((r.tokens.map (Token.seen v) ++ [t]).reverse ++ back)
        (r.bodies.map (HeredocBody.seen v)) =
      t :: (tokens.dropLast.map (Token.seen v) ++ back) := by
  have hrest := h.attachBodies_append v back []
  rw [List.append_nil, attachBodies_nil] at hrest
  rw [List.reverse_append, ← List.map_reverse, List.reverse_singleton, List.append_assoc,
    List.singleton_append, attachBodies, hrest]
  rintro text span tag body b bodies - rfl
  exact ht rfl

end ScanState

/-- An expression after the keyword of a conditional, and an empty body on the next line, are
scanned as the keyword, the expression alone and the body. -/
theorem Token.scan_conditional {source word : Text} {keyword : Keyword}
    {tokens comments : List Token} (hword : ScanState.Guards word keyword)
    (h : Token.scan source = .ok (tokens, comments)) :
    ∃ v : View, v.span = Span.translate ⟨word.length + 1, 1, word.length + 2⟩ ∧
      Token.scan (word ++ .char ' ' :: (source ++ .char '\n' :: (Text.ofString "\x7b \x7d"))) =
        .ok (Token.guard word keyword :: (tokens.dropLast.map (Token.seen v) ++
            Token.bracesAt ⟨source.length + (word.length + 2), source.count (.char '\n') + 2, 1⟩) ++
          [Token.endAt ⟨source.length + (word.length + 5), source.count (.char '\n') + 2, 4⟩],
          comments.map (Token.seen v)) := by
  have hfront : Position.start.after (word ++ [.char ' ']) =
      ⟨word.length + 1, 1, word.length + 2⟩ := by
    rw [Position.after_append, hword.place]
    rfl
  have hplace : Position.start.after (word ++ [.char ' '] ++ source ++ [.char '\n']) =
      ⟨source.length + (word.length + 2), source.count (.char '\n') + 2, 1⟩ := by
    have hline := hword.place
    rw [Position.start_after, Position.mk.injEq] at hline
    rw [Position.start_after_line]
    simp
    omega
  generalize hrest : (Text.ofString "\x7b \x7d") = rest
  obtain ⟨m, hm, hfuel⟩ : ∃ m, (source ++ .char '\n' :: rest).length < m ∧
      (word ++ .char ' ' :: (source ++ .char '\n' :: rest)).length + 1 = m + 1 + 1 := by
    refine ⟨(source ++ .char '\n' :: rest).length + word.length, ?_, ?_⟩
    · exact Nat.lt_add_of_pos_right hword.nonempty
    rw [List.length_append, List.length_cons]
    omega
  -- The keyword and the blank after it are read, and then the source as it is alone.
  have hblank (nested : NestedScan) : (ScanState.guarded word keyword
      ⟨⟨word.length, 1, word.length + 1⟩, .char ' ' :: (source ++ .char '\n' :: rest)⟩).step
          nested =
        .ok (some (ScanState.guarded word keyword
          ⟨⟨word.length + 1, 1, word.length + 2⟩, source ++ .char '\n' :: rest⟩)) :=
    ScanState.step_gap rfl (.inr (.inl rfl)) rfl
  obtain ⟨r, r', left, hended, hjoined, hleft, hrun⟩ :=
    ScanState.run_inserted (word ++ [.char ' ']) (.char '\n' :: rest) (.inr rfl) h
      (a := ScanState.guarded word keyword
        ⟨⟨word.length + 1, 1, word.length + 2⟩, source ++ .char '\n' :: rest⟩)
      rfl hword.value rfl (by rw [hfront]; rfl) hm
  obtain ⟨left', hleft', hline⟩ := ScanState.run_passes_line hended hjoined hleft
  have hidle : r'.queue.waiting = [] := by
    have hwaiting := hjoined.waiting
    rwa [hended.idle, List.forall₂_nil_left_iff] at hwaiting
  obtain ⟨r'', hbody, hcomments⟩ := ScanState.run_emptyBody
    (s := { r' with cursor := ⟨_, rest⟩ }) hjoined.openers.2 hidle (by rw [hrest])
    (by rwa [← hrest] at hleft')
  have hscan := ((ScanState.run_of_step (hword.reads _ _)).trans
    (ScanState.run_of_step (hblank _))).trans (hrun.trans (hline.trans hbody))
  refine ⟨(Fork.inserted (word ++ [.char ' ']) source (.char '\n' :: rest) 0).left, ?_, ?_⟩
  · show Span.translate _ = _
    rw [hfront]
  · unfold Token.scan
    rw [hfuel, hscan]
    have htokens := hended.attached_between
      (Fork.inserted (word ++ [.char ' ']) source (.char '\n' :: rest) 0).left
      (Token.bracesAt ⟨source.length + (word.length + 2), source.count (.char '\n') + 2, 1⟩)
      (show (Token.guard word keyword).kind ≠ .heredoc from nofun)
    have hcomments' : r''.comments.reverse = comments.map
        (Token.seen (Fork.inserted (word ++ [.char ' ']) source (.char '\n' :: rest) 0).left) := by
      rw [hcomments]
      show r'.comments.reverse = _
      rw [hjoined.comments, hended.comments, List.map_reverse]
      exact congrArg List.reverse (List.append_nil _)
    rw [hplace]
    refine congrArg Except.ok (Prod.ext ?_ hcomments')
    show ScanState.attachBodies (r'.tokens.reverse ++ _) r'.bodies ++ _ = _
    rw [hjoined.tokens, hjoined.bodies]
    exact congrArg (· ++ _) htokens

/-! ## The parse of a conditional -/

/-- An empty body of two braces with a blank between them. -/
def Node.emptyBodyAt (p : Position) : Node :=
  .mk (Span.sized p 3) ((Token.bracesAt p).map Token.leaf) (.body [])

namespace Parse

variable {g : Grammar} {scope : Scope} {s r : TokenStream} {p : Position}

/-- No item stands before a token that closes them. -/
theorem untilClosed_nil {α σ : Type} {closes : TokenKind → Bool} {item : σ → Parser (α × σ)} {x : σ}
    (h : closes s.current.kind) : Gives (untilClosed closes item x) scope s ([], x) s := by
  refine repeatFrom_stops ?_
  simp only [gives_bind, gives_current]
  exact ⟨_, _, ⟨rfl, rfl⟩, gives_ite.mpr (.inl ⟨h, gives_pure.mpr ⟨rfl, rfl⟩⟩)⟩

theorem body_empty (hrest : s.rest = Token.bracesAt p) :
    Gives (body g) scope s (Node.emptyBodyAt p) s.tail.tail := by
  have hopens : s.current.kind = .symbol .leftBrace := by rw [TokenStream.current, hrest]; rfl
  have hcloses : s.tail.current.kind = .symbol .rightBrace := by
    rw [TokenStream.current, TokenStream.tail_rest, hrest]
    rfl
  unfold body
  simp only [gives_bind, gives_current, gives_ite, gives_advance, gives_withBraceBlocks,
    gives_expectSymbol, gives_pure]
  refine ⟨_, _, ⟨rfl, rfl⟩, .inr ⟨not_not.mpr hopens, ?_⟩⟩
  refine ⟨_, _, ⟨rfl, rfl⟩, _, _, untilClosed_nil (by simp [hcloses]), _, _,
    ⟨hcloses, rfl, rfl⟩, ?_, rfl⟩
  have hspan : (Span.sized p 1).join (Span.sized ⟨p.offset + 2, p.line, p.column + 2⟩ 1) =
      Span.sized p 3 := by
    simp only [Span.join, Span.sized, Span.mk.injEq, true_and, and_true]
    omega
  rw [TokenStream.current, TokenStream.current, TokenStream.tail_rest, hrest]
  exact congrArg (Node.mk · _ _) hspan.symm

variable {test : Node}

/-- The input ends here. -/
def AtEnd (s : TokenStream) : Prop := s.rest = [] ∧ s.last.kind = .endOfInput

theorem AtEnd.current (h : AtEnd s) : s.current.kind = .endOfInput := by
  rw [TokenStream.current, h.1]
  exact h.2

/-- A conditional of the keyword is read as its condition and its body, if nothing comes after
them. -/
structure Conditional (keyword : Keyword) (shape : Node → Node → Shape Node) : Prop where
  gives : ∀ {g scope next s s₁ test block r}, Gives (condition g) scope s.tail test s₁ →
    Gives (body g) scope s₁ block r → AtEnd r →
      Gives (construct g (.keyword keyword) next) scope s
        (.mk (s.current.span.join block.span) [s.current.leaf] (shape test block)) r
  unchained : ∀ test block, ¬ isChainElement (shape test block).kind

/-- Nor does a chain go on with it. -/
theorem conditional_statement {keyword : Keyword} {shape : Node → Node → Shape Node}
    {s₁ : TokenStream} {block : Node} (h : Conditional keyword shape) (scope : Scope)
    (hkeyword : s.current.kind = .keyword keyword)
    (htest : Gives (condition g) scope s.tail test s₁)
    (hbody : Gives (body g) scope s₁ block r) (hend : AtEnd r) :
    Gives (statement g) scope s
      (.mk (s.current.span.join block.span) [s.current.leaf] (shape test block)) r := by
  have hunchained : Gives (unchained g) scope s
      (.mk (s.current.span.join block.span) [s.current.leaf] (shape test block)) r := by
    simp only [unchained_eq, gives_bind, gives_current, gives_second]
    refine ⟨_, _, ⟨rfl, rfl⟩, _, _, ⟨rfl, rfl⟩, ?_⟩
    rw [hkeyword]
    exact h.gives htest hbody hend
  exact gives_bind.mpr ⟨_, _, hunchained, gives_ite.mpr (.inr ⟨h.unchained test block,
    gives_pure.mpr ⟨rfl, rfl⟩⟩)⟩

theorem optionalElse_none (h : AtEnd s) : Gives (optionalElse g) scope s none s := by
  simp only [optionalElse, gives_bind, gives_nextIs, gives_ite, gives_pure]
  exact ⟨_, _, ⟨rfl, rfl⟩, .inr ⟨by simp [h.current], trivial, rfl⟩⟩

theorem conditional_if : Conditional .if fun test block => .if test block [] none where
  gives htest hbody hend := by
    simp only [construct, ifStatement, gives_bind, gives_advance, gives_pure]
    exact ⟨_, _, ⟨rfl, rfl⟩, _, _, htest, _, _, hbody, _, _,
      untilClosed_nil (by simp [hend.current]), _, _, optionalElse_none hend, rfl, rfl⟩
  unchained _ _ := Bool.false_ne_true

theorem conditional_unless : Conditional .unless fun test block => .unless test block none where
  gives htest hbody hend := by
    simp only [construct, unlessStatement, gives_bind, gives_advance, gives_pure]
    exact ⟨_, _, ⟨rfl, rfl⟩, _, _, htest, _, _, hbody, _, _, optionalElse_none hend, rfl, rfl⟩
  unchained _ _ := Bool.false_ne_true

section

variable {source : Text} {base q : Position} {v : View} {us : List Token}
  {guard final : Token} {keyword : Keyword} {shape : Node → Node → Shape Node} {n : Node}

/-- Tokens of a source after a keyword and before the braces of a body. -/
theorem alike_conditional (p q : Position) (final : Token) (hv : v.span = Span.translate base)
    (hus : ∀ t ∈ us, t.Located source) (hguard : guard.span.stop < base.offset) :
    (TokenStream.ofTokens (us ++ [Token.endAt q])).Alike
      (Replay.before source hv (Token.bracesAt p) final)
      (TokenStream.ofTokens
        (guard :: (us.map (Token.seen v) ++ Token.bracesAt p) ++ [final])).tail := by
  generalize hs' : TokenStream.ofTokens (guard :: (us.map (Token.seen v) ++ Token.bracesAt p) ++
    [final]) = s'
  have hrest : s'.rest = guard :: (us.map (Token.seen v) ++ Token.bracesAt p) := by
    rw [← hs', TokenStream.ofTokens_rest]
  exact {
    fit := fit_ofTokens hus q
    rest := by rw [TokenStream.tail_rest, TokenStream.ofTokens_rest, hrest]; rfl
    final := by rw [TokenStream.tail_last, ← hs', TokenStream.ofTokens_last]; rfl
    last := nofun
    behind := fun stop hstop => by
      have hprevious : s'.tail.previousStop = some guard.span.stop := by
        unfold TokenStream.tail
        rw [hrest]
      rw [hprevious] at hstop
      obtain rfl := Option.some.inj hstop
      show guard.span.stop ≤ source.length + base.offset
      omega
    touches := fun hleaves => by
      rw [Replay.Leaves, TokenStream.ofTokens_rest] at hleaves
      obtain ⟨t, ts, rfl⟩ := List.exists_cons_of_ne_nil (hleaves.resolve_left nofun)
      have hstart := (hus t List.mem_cons_self).covers.correct.starts
      rw [TokenStream.touches_tail hrest, TokenStream.current, TokenStream.tail_rest, hrest]
      refine decide_eq_false ?_
      show ¬ guard.span.stop = (t.seen v).span.start
      rw [Token.seen_span, hv, Span.translate_start]
      omega
    closes := fun _ _ _ => .inr rfl
    unlinked := fun _ => ⟨nofun, nofun, rfl⟩ }

/-- A bare expression between a keyword and the braces of a body is the condition. -/
theorem tokens_conditional (hfinal : final.kind = .endOfInput)
    (hshape : Conditional keyword shape) (hv : v.span = Span.translate base)
    (hus : ∀ t ∈ us, t.Located source ∧ t.Closed) (hguard : guard.span.stop < base.offset)
    (hkeyword : guard.kind = .keyword keyword)
    (h : Parse.tokens (us ++ [Token.endAt q]) = .ok [n])
    (hn : Place.statementExpression.kinds.contains n.kind) (hbare : n.Bare) :
    Parse.tokens (guard :: (us.map (Token.seen v) ++ Token.bracesAt p) ++ [final]) =
      .ok [.mk (guard.span.join (Span.sized p 3)) [guard.leaf]
        (shape (n.seen v) (Node.emptyBodyAt p))] := by
  obtain ⟨r, h⟩ := runOn_eq_ok.mp h
  obtain ⟨hseq, -⟩ := gives_statements.mp h
  cases hseq with
  | next _ hstatement hdone =>
  cases hdone with
  | done hend =>
  have hclosed := ofTokens_closed (p := q) fun t ht => (hus t ht).2
  obtain ⟨ts, hreads, -⟩ := statement_yields (grammar_sound _) hclosed hstatement
  have hnil := (hreads.closed hclosed).rest_eq_nil hend
  -- The expression is read where no brace may open a block, and so before the braces.
  have hcommand := statement_command hstatement hn
  have hflat := ((command_unblocks (grammar_unblocks _) _).gives hcommand hbare).2
  have hle : Token.countAll (us ++ [Token.endAt q]) + 1 ≤
      Token.countAll (guard :: (us.map (Token.seen v) ++ Token.bracesAt p) ++ [final]) + 1 := by
    have hbraces : Token.countAll (Token.bracesAt p) = 2 := rfl
    have hone : Token.countAll [Token.endAt q] = 1 := rfl
    rw [Token.countAll_append, hone, Token.countAll_append, Token.countAll,
      Token.countAll_append, Token.countAll_seen, hbraces]
    omega
  have halike := alike_conditional p q final hv (fun t ht => (hus t ht).1) hguard
  obtain ⟨r', htest, hr⟩ := (command_flat (grammar_replaysFlat rfl hle) _).answers
    halike hflat
  generalize hs' : TokenStream.ofTokens (guard :: (us.map (Token.seen v) ++ Token.bracesAt p) ++
    [final]) = s' at htest
  have hrest' : r'.rest = Token.bracesAt p := by
    rw [hr.rest, hnil]
    rfl
  have hend' : AtEnd r'.tail.tail := by
    refine ⟨by rw [TokenStream.tail_rest, TokenStream.tail_rest, hrest']; rfl, ?_⟩
    rw [TokenStream.tail_last, TokenStream.tail_last, hr.final]
    exact hfinal
  have hrest : s'.rest = guard :: (us.map (Token.seen v) ++ Token.bracesAt p) := by
    rw [← hs', TokenStream.ofTokens_rest]
  have hcurrent : s'.current = guard := by
    rw [TokenStream.current, hrest]
    rfl
  have hconditional := conditional_statement hshape ⟨true⟩ (by rwa [hcurrent]) htest
    (body_empty hrest') hend'
  rw [hcurrent] at hconditional
  refine runOn_eq_ok.mpr ⟨r'.tail.tail, ?_⟩
  rw [hs']
  refine gives_statements.mpr ⟨.next ?_ hconditional (.done hend'.current), ?_⟩
  · rw [hcurrent, hkeyword]
    rintro ⟨⟩
  · rw [hrest]
    exact Nat.succ_le_succ (Nat.zero_le _)

end

end Parse

namespace Node

variable {source : Text} {tree t : Node}

/-- An expression between the keyword of a conditional and an empty body is its condition. -/
theorem parse_conditional {word : Text} {keyword : Keyword} {shape : Node → Node → Shape Node}
    (hword : ScanState.Guards word keyword) (hshape : Conditional keyword shape)
    (h : Node.parse source = .ok tree) (ht : tree.statements = [t])
    (hkind : Place.statementExpression.kinds.contains t.kind) (hbare : t.Bare) :
    Node.parse (word ++ .char ' ' :: (source ++ .char '\n' :: (Text.ofString "\x7b \x7d"))) =
      .ok (Node.plain ⟨0, (source.length + (word.length + 5) : Nat), 1, 1⟩ (.manifest
        [.mk ⟨0, (source.length + (word.length + 5) : Nat), 1, 1⟩
          [⟨⟨0, word.length, 1, 1⟩, word⟩]
          (shape (t.translate ⟨word.length + 1, 1, word.length + 2⟩)
            (emptyBodyAt ⟨source.length + (word.length + 2), source.count (.char '\n') + 2, 1⟩))]
        (tree.comments.map (Node.translate ⟨word.length + 1, 1, word.length + 2⟩)))) := by
  obtain ⟨⟨tokens, comments⟩, hscan, h⟩ := bind_eq_ok.mp h
  obtain ⟨ns, hns, h⟩ := bind_eq_ok.mp h
  cases h
  obtain rfl : ns = [t] := ht
  obtain ⟨⟨q, hends⟩, htokens⟩ := Token.scan_ends hscan
  rw [hends] at hns
  obtain ⟨v, hv, hscan'⟩ := Token.scan_conditional hword hscan
  have hguard : (Token.guard word keyword).span.stop < word.length + 1 :=
    Int.lt_succ (word.length : Int)
  have hstatements := Parse.tokens_conditional
    (p := ⟨source.length + (word.length + 2), source.count (.char '\n') + 2, 1⟩)
    (show (Token.endAt
      ⟨source.length + (word.length + 5), source.count (.char '\n') + 2, 4⟩).kind = _
      from rfl)
    hshape hv htokens hguard rfl hns hkind hbare
  have hseen : Node.seen v = Node.translate ⟨word.length + 1, 1, word.length + 2⟩ :=
    Node.seen_congr (by rw [hv]; rfl)
  have hcomments : (comments.map (Token.seen v)).map Token.commentNode =
      (comments.map Token.commentNode).map
        (Node.translate ⟨word.length + 1, 1, word.length + 2⟩) := by
    rw [← hseen, List.map_map, List.map_map]
    exact List.map_congr_left fun c _ => c.seen_commentNode v
  have hspan : (Token.guard word keyword).span.join
      (Span.sized ⟨source.length + (word.length + 2), source.count (.char '\n') + 2, 1⟩ 3) =
        ⟨0, (source.length + (word.length + 5) : Nat), 1, 1⟩ := by
    simp only [Token.guard, Span.join, Span.sized, Token.span, Span.mk.injEq, true_and, and_true]
    omega
  have hlength :
      (word ++ .char ' ' :: (source ++ .char '\n' :: (Text.ofString "\x7b \x7d"))).length =
      source.length + (word.length + 5) := by
    have hbraces : (Text.ofString "\x7b \x7d").length = 3 := rfl
    simp only [List.length_append, List.length_cons, hbraces]
    omega
  rw [hseen, hspan] at hstatements
  refine bind_eq_ok.mpr ⟨_, hscan', bind_eq_ok.mpr ⟨_, hstatements, ?_⟩⟩
  rw [hcomments, hlength]
  rfl

/-- A condition is parsed as the expression it is.  Where a source is one expression in which no
brace opens a block outside brackets, the source between `if` or `unless` and an empty body on the
next line is parsed as a conditional of that expression, moved behind the keyword. -/
theorem parse_condition (h : Node.parse source = .ok tree) (ht : tree.statements = [t])
    (hkind : Place.statementExpression.kinds.contains t.kind) (hbare : t.Bare) :
    Node.parse (Text.ofString "if " ++ source ++ (Text.ofString "\n\x7b \x7d")) =
        .ok (Node.plain ⟨0, source.length + 7, 1, 1⟩ (.manifest
          [.mk ⟨0, source.length + 7, 1, 1⟩ [⟨⟨0, 2, 1, 1⟩, Text.ofString "if"⟩]
            (.if (t.translate ⟨3, 1, 4⟩)
              (emptyBodyAt ⟨source.length + 4, source.count (.char '\n') + 2, 1⟩) [] none)]
          (tree.comments.map (Node.translate ⟨3, 1, 4⟩)))) ∧
      Node.parse (Text.ofString "unless " ++ source ++ (Text.ofString "\n\x7b \x7d")) =
        .ok (Node.plain ⟨0, source.length + 11, 1, 1⟩ (.manifest
          [.mk ⟨0, source.length + 11, 1, 1⟩ [⟨⟨0, 6, 1, 1⟩, Text.ofString "unless"⟩]
            (.unless (t.translate ⟨7, 1, 8⟩)
              (emptyBodyAt ⟨source.length + 8, source.count (.char '\n') + 2, 1⟩) none)]
          (tree.comments.map (Node.translate ⟨7, 1, 8⟩)))) ∧
      ∀ (s : Span) (n : Nat), s.translate ⟨n, 1, n + 1⟩ = ⟨s.start + n, s.stop + n, s.line,
        if s.line = 1 then s.column + n else s.column⟩ := by
  have hif := parse_conditional ScanState.guards_if conditional_if h ht hkind hbare
  have hunless := parse_conditional ScanState.guards_unless conditional_unless h ht hkind hbare
  refine ⟨?_, ?_, fun s n => ?_⟩
  · rw [List.append_assoc]
    exact hif
  · rw [List.append_assoc]
    exact hunless
  · simp only [Span.translate, Span.mk.injEq]
    refine ⟨Int.add_comm _ _, Int.add_comm _ _, ?_, ?_⟩
    · omega
    · split <;> omega

/-- A call with a block between its brackets, and a comment on the same line. -/
theorem parse_condition_call : ∃ tree t,
    Node.parse (Text.ofString "f($b.g \x7b \x7d) # c") = .ok tree ∧ tree.statements = [t] ∧
      Place.statementExpression.kinds.contains t.kind ∧ t.Bare ∧
      Node.parse (Text.ofString "if f($b.g \x7b \x7d) # c\n\x7b \x7d") =
        .ok (Node.plain ⟨0, 22, 1, 1⟩ (.manifest
          [.mk ⟨0, 22, 1, 1⟩ [⟨⟨0, 2, 1, 1⟩, Text.ofString "if"⟩]
            (.if (t.translate ⟨3, 1, 4⟩) (emptyBodyAt ⟨19, 2, 1⟩) [] none)]
          (tree.comments.map (Node.translate ⟨3, 1, 4⟩)))) := by
  have hrun : (Node.parse (Text.ofString "f($b.g \x7b \x7d) # c")).toOption.map (fun tree =>
      tree.statements.map fun t => (Place.statementExpression.kinds.contains t.kind, t.opensBlock,
        t.shape.unbracketed.map fun e => (e.opensBlock, e.shape.unbracketed.length))) =
      some [(true, false, [(false, 0)])] := by cbv
  obtain ⟨tree, h, hstatements⟩ := exists_ok_of_map hrun
  obtain ⟨t, ts, ht, hfacts, hnil⟩ := List.map_eq_cons_iff.mp hstatements
  obtain rfl := List.map_eq_nil_iff.mp hnil
  simp only [Prod.mk.injEq] at hfacts
  obtain ⟨hkind, hopens, helements⟩ := hfacts
  have hbare : t.Bare := by
    refine bare_of_unbracketed (by rw [hopens]; exact Bool.false_ne_true) fun e he => ?_
    have hname : (e.opensBlock, e.shape.unbracketed.length) ∈ [(false, 0)] :=
      helements ▸ List.mem_map_of_mem he
    rw [List.mem_singleton, Prod.mk.injEq, List.length_eq_zero_iff] at hname
    refine bare_of_unbracketed (by rw [hname.1]; exact Bool.false_ne_true) ?_
    rw [hname.2]
    exact List.forall_mem_nil _
  exact ⟨tree, t, h, ht, hkind, hbare, (parse_condition h ht hkind hbare).1⟩

end Node

end ManifestTree
