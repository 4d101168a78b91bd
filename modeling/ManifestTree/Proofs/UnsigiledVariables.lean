import ManifestTree.Proofs.ParsedConditions
import ManifestTree.Proofs.UnsigiledScans

/-!
# Variables without their dollar sign

A string of one interpolation that begins with a variable is parsed with a bare word in its place as
with the variable.  A word without a call is read as a variable there, and what follows is read as
after one, a character further left.
-/

namespace ManifestTree

open Text Parse ManifestTree.Parser

namespace Parse

/-! ## Strings alone -/

/-- Only a token of a string makes a string. -/
theorem Derives.lone_string {c : Category} {ts : List Token} {n : Node} (h : Derives c ts n)
    (hn : n.kind = .string) : ∃ t, ts = [t] ∧ t.kind = .string := by
  induction h with
  | string t _ hk => exact ⟨t, rfl, hk⟩
  | quoted _ ih | bareOperand _ ih | single _ _ ih | plainCommand _ ih | nestedType _ ih
  | literalArgument _ _ _ ih | stringAttribute _ ih | valueKey _ _ ih | stringTarget _ ih
  | referenceTarget _ _ ih | stringMatch _ ih | expressionStatement _ ih => exact ih hn
  | «variable» | variableTarget | name | referenceName | namedTarget | bareVariable =>
    exact absurd ((Node.kind_ofName _ _ _).symm.trans hn) (by decide)
  | composition _ verb => cases verb <;> cases hn
  | _ => cases hn

/-- A parser answers one thing. -/
theorem gives_iff {α : Type} {p : Parser α} {scope : Scope} {s r r' : TokenStream} {a b : α}
    (h : Gives p scope s a r) : Gives p scope s b r' ↔ b = a ∧ r' = r := by
  constructor
  · intro h'
    obtain ⟨hb, hr⟩ := Prod.mk.inj (Except.ok.inj (h'.symm.trans h))
    exact ⟨hb, hr⟩
  · rintro ⟨rfl, rfl⟩
    exact h

/-- A token of the kind goes on with no expression and no chain. -/
structure Unextending (kind : TokenKind) : Prop where
  index : kind ≠ .symbol .leftBracket
  method : kind ≠ .symbol .dot
  selector : kind ≠ .symbol .question
  binary : Operator.binary? kind = none
  command : Operator.command? kind = none
  arrow : chainArrow? kind = none

theorem unextending_endOfInput : Unextending .endOfInput :=
  ⟨by decide, by decide, by decide, rfl, rfl, rfl⟩

theorem unextending_leftParen : Unextending (.symbol .leftParen) :=
  ⟨by decide, by decide, by decide, rfl, rfl, rfl⟩

section

variable {g : Grammar} {scope : Scope} {s r : TokenStream} {m n : Node}

theorem Unextending.postfixTail (h : Unextending s.current.kind) :
    Gives (postfixTail g m) scope s n r ↔ n = m ∧ r = s := by
  refine gives_iff (repeatFrom_stops ?_)
  simp [h.index, h.method, h.selector]

theorem Unextending.climb (h : Unextending s.current.kind) {maxRank : Nat} {command : Bool} :
    Gives (climb g maxRank command m) scope s n r ↔ n = m ∧ r = s := by
  refine gives_iff (repeatFrom_stops ?_)
  simp [h.binary]

theorem Unextending.climbCommand (h : Unextending s.current.kind) {maxRank : Nat} :
    Gives (climbCommand g maxRank m) scope s n r ↔ n = m ∧ r = s := by
  refine gives_iff (repeatFrom_stops ?_)
  simp [h.command]

theorem Unextending.chain (h : Unextending s.current.kind) :
    Gives (chain g m) scope s n r ↔ n = m ∧ r = s := by
  refine gives_iff (repeatFrom_stops ?_)
  simp [h.arrow]

theorem statement_string (hk : s.current.kind = .string) (h : Unextending s.tail.current.kind) :
    Gives (statement g) scope s n r ↔ s.current.stringNode g = .ok n ∧ r = s.tail := by
  have hliteral : s.current.literal? g = some (s.current.stringNode g) := by
    rw [Token.literal?, hk]
  have hunary : Operator.unary? .string = none := rfl
  have hcommand {m : Node} {t : TokenStream} : Gives (command g Operator.commandRank) scope s m t ↔
      s.current.stringNode g = .ok m ∧ t = s.tail := by
    simp [command, binary, binaryIn, unary, operand, primary, hk, hliteral, hunary, h.postfixTail,
      h.climb, h.climbCommand]
  have hconstruct (next : TokenKind) :
      construct g .string next = command g Operator.commandRank := rfl
  simp only [statement, unchained_eq, gives_bind, gives_current, gives_second, gives_ite,
    gives_pure]
  constructor
  · rintro ⟨m, _, ⟨_, _, ⟨rfl, rfl⟩, _, _, ⟨rfl, rfl⟩, hm⟩, hrest⟩
    rw [hk, hconstruct] at hm
    obtain ⟨hstring, rfl⟩ := hcommand.mp hm
    rcases hrest with ⟨-, hrest⟩ | ⟨-, rfl, rfl⟩
    · obtain ⟨rfl, rfl⟩ := h.chain.mp hrest
      exact ⟨hstring, rfl⟩
    · exact ⟨hstring, rfl⟩
  · rintro ⟨hn, rfl⟩
    refine ⟨n, s.tail, ⟨_, _, ⟨rfl, rfl⟩, _, _, ⟨rfl, rfl⟩, ?_⟩, ?_⟩
    · rw [hk, hconstruct]
      exact hcommand.mpr ⟨hn, rfl⟩
    · exact (em _).imp (fun hc => ⟨hc, h.chain.mpr ⟨rfl, rfl⟩⟩) fun hc => ⟨hc, rfl, rfl⟩

end

theorem tokens_string {t : Token} {q : Position} {n : Node} (hk : t.kind = .string) :
    Parse.tokens [t, Token.endAt q] = .ok [n] ↔
      t.stringNode (grammar (Token.countAll [t, Token.endAt q] + 1)) = .ok n := by
  let s := TokenStream.ofTokens [t, Token.endAt q]
  have hend : s.tail.current.kind = .endOfInput := rfl
  have hstring {g : Grammar} {m : Node} {r : TokenStream} : Gives (statement g) ⟨true⟩ s m r ↔
      t.stringNode g = .ok m ∧ r = s.tail := statement_string hk (hend ▸ unextending_endOfInput)
  rw [Parse.tokens, runOn_eq_ok]
  simp only [gives_statements]
  constructor
  · rintro ⟨r, hseq, -⟩
    cases hseq with
    | next _ hstatement _ => exact (hstring.mp hstatement).1
  · intro hn
    refine ⟨s.tail, .next ?_ (hstring.mpr ⟨hn, rfl⟩) (.done hend), Nat.le_refl 1⟩
    show t.kind ≠ .endOfInput
    rw [hk]
    rintro ⟨⟩

end Parse

theorem Token.stringNode_interpolation {g : Grammar} {t : Token} {f : Fragment} {ts : List Token}
    {e : Node} (hf : t.fragments = [f]) (hp : f.piece = .interpolation ts)
    (he : g.interpolated ts = .ok e) : t.stringNode g = .ok (t.stringOf [f.nodeOf e]) := by
  have hnode : f.toNode g = .ok (f.nodeOf e) := by
    unfold Fragment.toNode Fragment.nodeOf
    rw [hp]
    exact bind_eq_ok.mpr ⟨e, he, rfl⟩
  have hnodes : Fragment.toNodes g t.fragments = .ok [f.nodeOf e] := by
    rw [hf]
    exact bind_eq_ok.mpr ⟨_, hnode, rfl⟩
  exact bind_eq_ok.mpr ⟨_, hnodes, rfl⟩

/-- A string node of one interpolation comes from such a token. -/
theorem Token.interpolation_of_stringNode {g : Grammar} {t : Token} {n i e : Node}
    {quote : QuoteStyle} (h : t.stringNode g = .ok n) (hn : n.shape = .string quote [i])
    (hi : i.shape = .interpolation e) :
    quote = (if t.text.head? = some (.char '\x27') then .single else .double) ∧
      ∃ f ts, t.fragments = [f] ∧ f.piece = .interpolation ts ∧ g.interpolated ts = .ok e := by
  obtain ⟨ns, hns, h⟩ := bind_eq_ok.mp h
  cases h
  obtain ⟨rfl, hinner⟩ := Parse.toNodes_eq hns
  obtain ⟨rfl, hparts⟩ := Shape.string.inj hn
  obtain ⟨f, fs, hf, rfl, hfs⟩ := List.map_eq_cons_iff.mp hparts
  obtain rfl := List.map_eq_nil_iff.mp hfs
  refine ⟨rfl, f, ?_⟩
  obtain ⟨ts, hp, rfl⟩ : ∃ ts, f.piece = .interpolation ts ∧ Parse.innerOf g f = e := by
    unfold Fragment.nodeOf at hi
    cases hpiece : f.piece with
    | interpolation ts =>
      rw [hpiece] at hi
      exact ⟨ts, rfl, Shape.interpolation.inj hi⟩
    | «variable» =>
      rw [hpiece] at hi
      obtain ⟨segments, absolute, hname⟩ := @Shape.ofName_eq Node .variable (f.text.drop 1)
      rw [hname] at hi
      cases hi
    | _ =>
      rw [hpiece] at hi
      cases hi
  exact ⟨ts, hf, hp, hinner f (hf ▸ List.mem_cons_self) ts hp⟩

/-- What stands within a located token stands after its start, unless it is a heredoc. -/
theorem Token.Located.deep_after {source : Text} {t : Token} (h : t.Located source)
    (hk : t.kind ≠ .heredoc) : ∀ f ∈ t.deepFragments, t.span.start ≤ f.span.start := by
  intro f hf
  have hbody : t.body? = none := by
    rcases h.regular.shape with hd | ⟨-, fs, hd⟩ | ⟨hheredoc, -⟩
    · rw [Token.body?, hd]
    · rw [Token.body?, hd]
    · exact absurd hheredoc hk
  rcases Token.mem_deepFragments.mp hf with ⟨g, hg, hfg⟩ | ⟨b, hb, -⟩
  · have hgl := h.fragments g hg
    have hgt := (h.fragments_within g hg).1
    have hfg := (Fragment.deep_within hgl.sound hgl.regular f hfg).1.1
    omega
  · rw [hbody] at hb
    cases hb

/-- What stands after the first token of an interpolation. -/
theorem Fragment.Located.later {source : Text} {f : Fragment} {t : Token} {us : List Token}
    {q : Position} {n : Nat} (h : f.Located source)
    (hp : f.piece = .interpolation (t :: (us ++ [Token.endAt q]))) (hn : n ≤ t.span.stop) :
    t.Located source ∧ (∀ u ∈ us, u.LiesIn ⟨source, n⟩) ∧ n ≤ q.offset := by
  obtain ⟨inside, vs, -, hts, hrow, -, hwithin⟩ := h.interpolation hp
  have hsplit : (t :: us) ++ [Token.endAt q] = vs ++ _ := hts
  obtain ⟨rfl, hend⟩ := List.append_inj' hsplit rfl
  have hkind (u : Token) (hu : u ∈ us) : u.kind ≠ .heredoc := by
    refine ((h.regular f f.self_mem_deep).tokens u ?_).1
    rw [Fragment.tokens, hp]
    exact List.mem_cons_of_mem _ (List.mem_append_left _ hu)
  refine ⟨hrow.located t List.mem_cons_self, fun u hu => ?_, ?_⟩
  · have hlocated := hrow.located u (List.mem_cons_of_mem _ hu)
    have hafter := (List.pairwise_cons.mp hrow.ordered).1 u hu
    refine ⟨hlocated, ?_, fun g hg => ?_⟩
    · show (n : Int) ≤ u.span.start
      omega
    · have := hlocated.deep_after (hkind u hu) g hg
      show (n : Int) ≤ g.span.start
      omega
  · have hstop := (hwithin t List.mem_cons_self).2
    have hstart := h.covers.start_eq
    have hoffset : (q.offset : Int) =
        ((f.span.position.after ([.char '$', .char '\x7b'] ++ inside)).offset : Nat) :=
      congrArg (fun u : Token => u.span.start) (List.cons.inj hend).1
    rw [Position.after_offset, List.length_append] at hoffset
    have htwo : [CodePoint.char '$', CodePoint.char '\x7b'].length = 2 := rfl
    omega

/-- Tokens after the dollar sign of a variable, where the sign is left out. -/
def Replay.unsigiled (source : Text) (final : Token) : Replay :=
  ⟨⟨source, 4⟩, .unsigiled, Position.unsigiled, -1, .unsigiled, true, [], final⟩

namespace Parse

variable {source word : Text} {us : List Token} {q : Position} {e : Node}

/-- What comes after the variable is read after the word as it is after the variable. -/
theorem alike_unsigiled (hword : word.length + 4 ≤ source.length)
    (hus : ∀ u ∈ us, u.LiesIn ⟨source, 4⟩) (hq : 4 ≤ q.offset) :
    (TokenStream.ofTokens (Token.sigiled word :: us ++ [Token.endAt q])).tail.Alike
      (Replay.unsigiled source ((Token.endAt q).seen .unsigiled))
      (TokenStream.ofTokens (Token.unsigiled word :: us.map (Token.seen .unsigiled) ++
        [(Token.endAt q).seen .unsigiled])).tail := by
  generalize hs : TokenStream.ofTokens (Token.sigiled word :: us ++ [Token.endAt q]) = s
  generalize hs' : TokenStream.ofTokens (Token.unsigiled word :: us.map (Token.seen .unsigiled) ++
    [(Token.endAt q).seen .unsigiled]) = s'
  have hrest : s.rest = Token.sigiled word :: us := by rw [← hs, TokenStream.ofTokens_rest]
  have hrest' : s'.rest = Token.unsigiled word :: us.map (Token.seen .unsigiled) := by
    rw [← hs', TokenStream.ofTokens_rest]
  have hlast : s.tail.last = Token.endAt q := by
    rw [TokenStream.tail_last, ← hs, TokenStream.ofTokens_last]
  have hlast' : s'.tail.last = (Token.endAt q).seen .unsigiled := by
    rw [TokenStream.tail_last, ← hs', TokenStream.ofTokens_last]
  have htail : s'.tail.rest = s.tail.rest.map (Token.seen .unsigiled) ++ [] := by
    rw [TokenStream.tail_rest, TokenStream.tail_rest, hrest, hrest']
    exact (List.append_nil _).symm
  have hfit : s.tail.Fit ⟨source, 4⟩ :=
    { ending := by rw [hlast]; rfl
      ends := by rw [hlast]; exact Int.ofNat_le.mpr hq
      located := fun t ht => by
        rw [TokenStream.tail_rest, hrest] at ht
        exact hus t ht }
  have hstop : (Token.sigiled word).span.stop = (word.length + 4 : Nat) := by
    show ((3 : Nat) : Int) + ((word.length + 1 : Nat) : Int) = _
    omega
  have hstop' : (Token.unsigiled word).span.stop = (word.length + 3 : Nat) := by
    show ((3 : Nat) : Int) + (word.length : Int) = _
    omega
  exact {
    fit := hfit
    rest := htail
    final := hlast'
    last := fun _ => ⟨rfl, by rw [hlast]; rfl⟩
    behind := fun stop hbehind => by
      have hprevious : s'.tail.previousStop = some (Token.unsigiled word).span.stop := by
        unfold TokenStream.tail
        rw [hrest']
      rw [hprevious] at hbehind
      obtain rfl := Option.some.inj hbehind
      show _ ≤ (source.length : Int) + -1
      omega
    touches := fun hleaves => by
      have hcurrent : s'.tail.current = s.tail.current.seen .unsigiled :=
        TokenStream.current_seen htail (fun _ => ⟨rfl, by rw [hlast', hlast]; rfl⟩) hleaves
      have hstart := View.Moves.unsigiled.start hfit.current_start
      rw [TokenStream.touches_tail hrest, TokenStream.touches_tail hrest', hcurrent,
        Token.seen_span, hstart, hstop, hstop']
      refine decide_eq_decide.mpr ⟨fun h => ?_, fun h => ?_⟩ <;> omega
    closes := fun h => (h rfl).elim
    unlinked := fun h => (h rfl).elim }

/-- The word is the variable that it stands for. -/
theorem unsigiled_variableNode (hword : word.head? ≠ some (.char '$')) :
    (Token.unsigiled word).variableNode = (Token.sigiled word).variableNode.seen .unsigiled := by
  have hspan : View.unsigiled.span (Token.sigiled word).span = (Token.unsigiled word).span := by
    show (Span.sized ⟨3, 1, 4⟩ (word.length + 1)).unsigiled = Span.sized ⟨3, 1, 4⟩ word.length
    simp only [Span.unsigiled, Span.sized, Span.mk.injEq]
    refine ⟨if_neg (by decide), by omega, trivial, if_neg fun h => absurd h.1 (by decide)⟩
  have htext : Token.withoutSigil word = word := by
    unfold Token.withoutSigil
    split
    · exact absurd rfl hword
    · rfl
  rw [Token.variableNode, Token.variableNode, Node.seen_plain_mk, Shape.foldNodes_ofName, hspan]
  show Node.plain _ (.ofName .variable (Token.withoutSigil word)) = _
  rw [htext]
  rfl

section

variable {g : Grammar} {scope : Scope} {s r : TokenStream} {n : Node}

/-- A name goes on up to the end of input. -/
def Continues (g : Grammar) (scope : Scope) (name : Node) (s : TokenStream) (n : Node)
    (r : TokenStream) : Prop :=
  ∃ m s₁, Gives (postfixTail g name) scope s m s₁ ∧
    Gives (climb g Operator.expressionRank false m) scope s₁ n r ∧ r.current.kind = .endOfInput

/-- An interpolation with a variable in front. -/
theorem interpolatedExpression_variable (hk : s.current.kind = .variable) :
    Gives (interpolatedExpression g) scope s n r ↔
      Continues g scope s.current.variableNode s.tail n r := by
  have hliteral : s.current.literal? g = some (.ok s.current.variableNode) := by
    rw [Token.literal?, hk]
  have hunary : Operator.unary? .variable = none := rfl
  simp [interpolatedExpression, Continues, hk, binary, binaryIn, unary, operand, primary, hliteral,
    hunary, TokenKind.isPlainKeyword]

/-- An interpolation with a word in front that begins no call. -/
theorem interpolatedExpression_word
    (hk : s.current.kind = .name ∨ s.current.kind.isPlainKeyword)
    (hcalls : s.second.kind ≠ .symbol .leftParen) :
    Gives (interpolatedExpression g) scope s n r ↔
      Continues g scope s.current.variableNode s.tail n r := by
  have hend : s.current.kind ≠ .endOfInput := by
    intro hend
    rw [hend] at hk
    rcases hk with hk | hk <;> cases hk
  have hfront : ¬ (¬ s.current.kind = .name ∧ s.current.kind.isPlainKeyword = false) := by
    rintro ⟨hname, hplain⟩
    rw [hplain] at hk
    exact hk.elim hname Bool.false_ne_true
  simp [interpolatedExpression, Continues, hend, hk, hcalls, hfront]

/-- No name goes on with a parenthesis. -/
theorem Continues.not_leftParen {name : Node} (h : Continues g scope name s n r) :
    s.current.kind ≠ .symbol .leftParen := by
  obtain ⟨m, s₁, hpostfix, hclimb, hend⟩ := h
  intro hk
  have hstops : Unextending s.current.kind := hk ▸ unextending_leftParen
  obtain ⟨rfl, rfl⟩ := hstops.postfixTail.mp hpostfix
  obtain ⟨rfl, rfl⟩ := hstops.climb.mp hclimb
  rw [hk] at hend
  cases hend

/-- A name goes on elsewhere as it does here, where the input ends there too. -/
theorem Continues.replays {k : Replay} {g' : Grammar} {s' : TokenStream} {name : Node}
    (hg : g.Replays k g') (hends : k.ends) (hs : s.Alike k s') (h : Continues g scope name s n r) :
    ∃ r', Continues g' scope (name.seen k.view) s' (n.seen k.view) r' := by
  obtain ⟨m, s₁, hpostfix, hclimb, hend⟩ := h
  obtain ⟨s₁', hpostfix', hs₁⟩ := (postfixTail_replays hg name).gives hs hpostfix (.inl hends)
  obtain ⟨r', hclimb', hr⟩ := (climb_replays hg _ _ m).gives hs₁ hclimb (.inl hends)
  refine ⟨r', _, s₁', hpostfix', hclimb', ?_⟩
  rwa [hr.current (.inl hends), Token.seen_kind]

end

/-- What is parsed after the variable is parsed after the word. -/
theorem interpolated_unsigiled {n : Nat} (hword : word.head? ≠ some (.char '$'))
    (hkind : TokenKind.ofName word = .name ∨ (TokenKind.ofName word).isPlainKeyword)
    (hlength : word.length + 4 ≤ source.length) (hus : ∀ u ∈ us, u.LiesIn ⟨source, 4⟩)
    (hq : 4 ≤ q.offset)
    (h : interpolated (grammar n) (Token.sigiled word :: (us ++ [Token.endAt q])) = .ok e) :
    interpolated (grammar n) (Token.unsigiled word ::
      (us ++ [Token.endAt q]).map (Token.seen .unsigiled)) = .ok (e.seen .unsigiled) := by
  rw [← List.cons_append] at h
  rw [List.map_append, List.map_singleton, ← List.cons_append]
  have halike := alike_unsigiled hlength hus hq
  obtain ⟨r, h⟩ := runOn_eq_ok.mp h
  generalize hs : TokenStream.ofTokens (Token.sigiled word :: us ++ [Token.endAt q]) = s at h halike
  have hcurrent : s.current = Token.sigiled word := by
    rw [TokenStream.current, ← hs, TokenStream.ofTokens_rest]
    rfl
  have hcontinues := (interpolatedExpression_variable (by rw [hcurrent]; rfl)).mp h
  obtain ⟨r', hcontinues'⟩ := hcontinues.replays (grammar_replays (Nat.le_refl n) _) rfl halike
  generalize hs' : TokenStream.ofTokens (Token.unsigiled word :: us.map (Token.seen .unsigiled) ++
    [(Token.endAt q).seen .unsigiled]) = s' at hcontinues'
  have hcurrent' : s'.current = Token.unsigiled word := by
    rw [TokenStream.current, ← hs', TokenStream.ofTokens_rest]
    rfl
  have hsecond : s'.second = s'.tail.current := by
    rw [TokenStream.current, TokenStream.tail_rest, TokenStream.tail_last]
    rfl
  refine runOn_eq_ok.mpr ⟨r', ?_⟩
  rw [hs']
  refine (interpolatedExpression_word ?_ ?_).mpr ?_
  · rwa [hcurrent']
  · rw [hsecond]
    exact hcontinues'.not_leftParen
  · rw [hcurrent', unsigiled_variableNode hword, ← hcurrent]
    exact hcontinues'

end Parse

/-- What an interpolation with a variable in front holds, it holds with the word in its place. -/
theorem Fragment.Located.interpolated_unsigiled {source word : Text} {f : Fragment}
    {us : List Token} {q : Position} {e : Node} {n : Nat} (h : f.Located source)
    (hword : word.head? ≠ some (.char '$'))
    (hkind : TokenKind.ofName word = .name ∨ (TokenKind.ofName word).isPlainKeyword)
    (hp : f.piece = .interpolation (Token.sigiled word :: (us ++ [Token.endAt q])))
    (he : interpolated (grammar n) (Token.sigiled word :: (us ++ [Token.endAt q])) = .ok e) :
    interpolated (grammar n) (Token.unsigiled word ::
      (us ++ [Token.endAt q]).map (Token.seen .unsigiled)) = .ok (e.seen .unsigiled) := by
  have hstop : (Token.sigiled word).span.stop = (word.length + 4 : Nat) := by
    show ((3 : Nat) : Int) + ((word.length + 1 : Nat) : Int) = _
    omega
  obtain ⟨hsigiled, hus, hq⟩ := h.later (n := 4) hp (by omega)
  have hlength := hsigiled.covers.correct.ends
  exact Parse.interpolated_unsigiled hword hkind (by omega) hus hq he

/-! ## The word -/

theorem Keyword.isWord_spelling (k : Keyword) : ∀ c ∈ (Text.ofString k.spelling), isWord c := by
  intro c hc
  have hall : (Text.ofString k.spelling).all (fun c => c.val < 0x80 && isAsciiLower c) =
      Bool.true := by
    cases k <;> rfl
  obtain ⟨hlow, hlower⟩ := (Bool.and_eq_true _ _).mp (List.all_eq_true.mp hall c hc)
  simp [isWord, isAlphanumeric, of_decide_eq_true hlow, hlower]

theorem TokenKind.ofName_spelling {word : Text} {k : Keyword}
    (h : TokenKind.ofName word = .keyword k) : word = (Text.ofString k.spelling) := by
  unfold TokenKind.ofName at h
  split at h
  · rename_i hk
    cases h
    have hspelling : decide (Text.ofString k.spelling = word) = true :=
      List.find?_some (p := fun k : Keyword => Text.ofString k.spelling = word) hk
    exact (of_decide_eq_true hspelling).symm
  · cases h

theorem TokenKind.ofName_cases (word : Text) :
    TokenKind.ofName word = .name ∨ ∃ k, TokenKind.ofName word = .keyword k := by
  unfold TokenKind.ofName
  split
  · exact .inr ⟨_, rfl⟩
  · exact .inl rfl

/-- A word that no word character comes after is read, and if more is read then as a name. -/
theorem Lexeme.nameLength?_word {word rest : Text}
    (hword : nameLength? word = some word.length)
    (hrest : ∀ c ∈ rest.head?, ¬ isWord c) :
    ∃ n, nameLength? (word ++ rest) = some n ∧
      (TokenKind.ofName ((word ++ rest).take n) = .name ∨ n = word.length) := by
  cases hn : nameLength? (word ++ rest) with
  | none =>
    rw [nameLength?_local.missed hn] at hword
    cases hword
  | some n =>
    refine ⟨n, rfl, ?_⟩
    by_cases hle : n ≤ word.length
    · rw [nameLength?_local.found hn hle] at hword
      exact .inr (Option.some.inj hword)
    left
    refine (TokenKind.ofName_cases _).resolve_right fun ⟨k, hk⟩ => ?_
    -- A keyword that goes on after the word has its next character too.
    have hspelling := TokenKind.ofName_spelling hk
    cases rest with
    | nil =>
      have := nameLength?_local.within hn
      rw [List.append_nil] at this
      exact hle this
    | cons c cs =>
      refine hrest c rfl (k.isWord_spelling c ?_)
      rw [← hspelling]
      obtain ⟨m, rfl⟩ := Nat.exists_eq_add_of_lt (Nat.lt_of_not_le hle)
      rw [Nat.add_assoc, List.take_length_add_append, List.take_succ_cons]
      exact List.mem_append_right _ List.mem_cons_self

/-- A word that stands for no value is read as a name or as a keyword that may be one, and a slash
after it divides if it opens no regular expression there. -/
theorem TokenKind.ofName_plain {word rest : Text} {n : Nat}
    (hvalue : word ∉ ["true", "false", "undef", "default"].map Text.ofString)
    (hslash : TokenKind.ofName word = .name ∨
      Lexeme.regexLength? (Lexeme.afterGap .blanks rest) = none)
    (h : TokenKind.ofName ((word ++ rest).take n) = .name ∨ n = word.length) :
    (TokenKind.ofName ((word ++ rest).take n) = .name ∨
        (TokenKind.ofName ((word ++ rest).take n)).isPlainKeyword) ∧
      ((TokenKind.ofName ((word ++ rest).take n)).endsValue ∨
        Lexeme.regexLength? (Lexeme.afterGap .blanks ((word ++ rest).drop n)) = none) := by
  rcases h with hname | rfl
  · exact ⟨.inl hname, .inl (hname ▸ rfl)⟩
  rw [List.take_left, List.drop_left]
  rcases TokenKind.ofName_cases word with hname | ⟨k, hk⟩
  · exact ⟨.inl hname, .inl (hname ▸ rfl)⟩
  refine ⟨.inr ?_, hslash.imp_left fun hname => by rw [hname]; rfl⟩
  rw [TokenKind.ofName_spelling hk] at hvalue
  rw [hk]
  cases k with
  | «true» | «false» | undef | default => exact absurd (by decide) hvalue
  | _ => rfl

/-- A name begins with no dollar sign. -/
theorem Lexeme.nameLength?_unsigiled {text : Text} {n : Nat} (h : nameLength? text = some n) :
    (text.take n).head? ≠ some (.char '$') := by
  intro hhead
  obtain ⟨rest, hrest⟩ := List.head?_eq_some_iff.mp hhead
  have htext : text = .char '$' :: (rest ++ text.drop n) := by
    rw [← List.cons_append, ← hrest, List.take_append_drop]
  exact absurd (ScanState.nameLength?_head (htext ▸ h)).1 (by simp)

/-! ## Parses -/

theorem Node.token_of_string {source : Text} {tree t : Node}
    (h : Node.parse source = .ok tree) (ht : tree.statements = [t]) (hk : t.kind = .string) :
    ∃ u q comments, Token.scan source = .ok ([u, Token.endAt q], comments) ∧ u.kind = .string ∧
      u.Located source ∧
      u.stringNode (grammar (Token.countAll [u, Token.endAt q] + 1)) = .ok t := by
  obtain ⟨⟨tokens, comments⟩, hscan, h⟩ := bind_eq_ok.mp h
  obtain ⟨ns, hns, h⟩ := bind_eq_ok.mp h
  cases h
  obtain rfl : ns = [t] := ht
  obtain ⟨⟨q, hends⟩, htokens⟩ := Token.scan_ends hscan
  rw [hends] at hns hscan
  obtain ⟨items, hinner, hitems, hderives⟩ :=
    Parse.tokens_derive (fun u hu => (htokens u hu).2) hns
  obtain ⟨item, rest, rfl, rfl, hrest⟩ := List.map_eq_cons_iff.mp hitems.symm
  obtain rfl := List.map_eq_nil_iff.mp hrest
  obtain ⟨u, hu, hkind⟩ := (hderives item List.mem_cons_self).lone_string hk
  have htoken : tokens.dropLast = [u] := by rw [hinner, List.flatMap_singleton, hu]
  rw [htoken] at hns hscan
  exact ⟨u, q, comments, hscan, hkind, (htokens u (htoken ▸ List.mem_cons_self)).1,
    (Parse.tokens_string hkind).mp hns⟩

theorem Node.parse_string {source : Text} {u : Token} {q : Position} {comments : List Token}
    {t : Node} (h : Token.scan source = .ok ([u, Token.endAt q], comments)) (hk : u.kind = .string)
    (ht : u.stringNode (grammar (Token.countAll [u, Token.endAt q] + 1)) = .ok t) :
    ∃ tree, Node.parse source = .ok tree ∧ tree.statements = [t] :=
  ⟨_, bind_eq_ok.mpr ⟨_, h, bind_eq_ok.mpr ⟨_, (Parse.tokens_string hk).mpr ht, rfl⟩⟩, rfl⟩

theorem Token.count_interpolation {t : Token} {f : Fragment} {ts : List Token}
    (hf : t.fragments = [f]) (hp : f.piece = .interpolation ts) :
    t.count = Token.countAll ts + 1 := by
  obtain ⟨kind, text, span, d⟩ := t
  obtain ⟨text', span', piece⟩ := f
  obtain rfl : piece = .interpolation ts := hp
  cases d with
  | fragments fs =>
    obtain rfl : fs = [_] := hf
    rfl
  | _ => cases hf

/-- The source of a string of one interpolation. -/
def interpolating (inside : Text) : Text :=
  doubleQuote :: .char '$' :: .char '\x7b' :: (inside ++ [.char '\x7d', doubleQuote])

/-- A string of one interpolation that begins with a variable is parsed with a bare word in its
place. -/
theorem Node.parse_unsigiled {w r : Text} {quote : QuoteStyle} {tree t i e : Node}
    (hw : Lexeme.nameLength? w = some w.length)
    (hvalue : w ∉ ["true", "false", "undef", "default"].map Text.ofString)
    (hr : ∀ c ∈ r.head?, ¬ isWord c)
    (hreach : Lexeme.variableLength? (.char '$' :: (w ++ r ++ [.char '\x7d', doubleQuote])) =
      (Lexeme.nameLength? (w ++ r ++ [.char '\x7d', doubleQuote])).map (· + 1))
    (hslash : TokenKind.ofName w = .name ∨
      Lexeme.regexLength? (Lexeme.afterGap .blanks (r ++ [.char '\x7d', doubleQuote])) = none)
    (h : Node.parse (interpolating (.char '$' :: (w ++ r))) = .ok tree) (ht : tree.statements = [t])
    (hstring : t.shape = .string quote [i]) (hi : i.shape = .interpolation e) :
    ∃ tree' t' i', Node.parse (interpolating (w ++ r)) = .ok tree' ∧ tree'.statements = [t'] ∧
      t'.shape = .string quote [i'] ∧ i'.shape = .interpolation (e.seen .unsigiled) := by
  have hrest : ∀ c ∈ (r ++ [.char '\x7d', doubleQuote]).head?, ¬ isWord c := by
    cases r with
    | nil => exact fun c hc => Option.some.inj hc ▸ (by decide : ¬ isWord '\x7d')
    | cons c cs => exact hr
  obtain ⟨n, hname, hkind⟩ := Lexeme.nameLength?_word hw hrest
  obtain ⟨hplain, hword⟩ := TokenKind.ofName_plain hvalue hslash hkind
  rw [← List.append_assoc] at hname hplain hword
  have hk : t.kind = .string := by
    obtain ⟨span, leaves, shape⟩ := t
    obtain rfl : shape = _ := hstring
    rfl
  obtain ⟨u, q, comments, hscan, hstringKind, hlocated, hnode⟩ := Node.token_of_string h ht hk
  obtain ⟨rfl, f, ts, hf, hp, he⟩ := Token.interpolation_of_stringNode hnode hstring hi
  have hsource : interpolating (.char '$' :: (w ++ r)) =
      doubleQuote :: .char '$' :: .char '\x7b' :: .char '$' ::
        (w ++ r ++ [.char '\x7d', doubleQuote]) := rfl
  have hsource' : interpolating (w ++ r) =
      doubleQuote :: .char '$' :: .char '\x7b' :: (w ++ r ++ [.char '\x7d', doubleQuote]) := rfl
  rw [hsource] at hscan hlocated
  rw [hsource']
  generalize w ++ r ++ [.char '\x7d', doubleQuote] = text at *
  rw [hname] at hreach
  obtain ⟨hhead, us, p, u', f', q', comments', rfl, hscan', hk', hhead', hf', hp'⟩ :=
    Token.scan_unsigiled hname hreach hword hscan hstringKind hf hp
  have hinner := (hlocated.fragments f (hf ▸ List.mem_cons_self)).interpolated_unsigiled
    (Lexeme.nameLength?_unsigiled hname) hplain hp he
  have hcount : Token.countAll [u', Token.endAt q'] = Token.countAll [u, Token.endAt q] := by
    have hone (word : Text) : (Token.unsigiled word).count = (Token.sigiled word).count := rfl
    have hlast (p : Position) : (Token.endAt p).count = 1 := rfl
    simp only [Token.countAll, hlast, Token.count_interpolation hf hp,
      Token.count_interpolation hf' hp', Token.countAll_seen, hone]
  have hnode' : u'.stringNode (grammar (Token.countAll [u', Token.endAt q'] + 1)) =
      .ok (u'.stringOf [f'.nodeOf (e.seen .unsigiled)]) :=
    Token.stringNode_interpolation hf' hp' (by rw [hcount]; exact hinner)
  obtain ⟨tree', htree', ht'⟩ := Node.parse_string hscan' hk' hnode'
  refine ⟨tree', _, f'.nodeOf (e.seen .unsigiled), htree', ht', ?_, ?_⟩
  · rw [hhead, ← hhead']
    rfl
  · unfold Fragment.nodeOf
    rw [hp']
    rfl

/-- The expression of a double-quoted string that holds one interpolation. -/
def Node.interpolation? (t : Node) : Option Node :=
  match t.shape with
  | .string .double [i] =>
    match i.shape with
    | .interpolation e => some e
    | _ => none
  | _ => none

theorem Node.interpolation?_eq_some {t e : Node} (h : t.interpolation? = some e) :
    ∃ i, t.shape = .string .double [i] ∧ i.shape = .interpolation e := by
  unfold Node.interpolation? at h
  split at h
  · rename_i i hstring
    split at h
    · cases h
      exact ⟨i, hstring, ‹_›⟩
    · cases h
  · cases h

/-- A source whose only statement holds one interpolation. -/
theorem Node.interpolation_of_parse (source : Text)
    (h : (Node.parse source).toOption.map (fun tree =>
      tree.statements.map fun t => t.interpolation?.isSome) = some [true]) :
    ∃ tree t i e, Node.parse source = .ok tree ∧ tree.statements = [t] ∧
      t.shape = .string .double [i] ∧ i.shape = .interpolation e := by
  obtain ⟨tree, htree, hstatements⟩ := exists_ok_of_map h
  obtain ⟨t, ts, ht, hsome, hnil⟩ := List.map_eq_cons_iff.mp hstatements
  obtain rfl := List.map_eq_nil_iff.mp hnil
  obtain ⟨e, he⟩ := Option.isSome_iff_exists.mp hsome
  obtain ⟨i, hi, hexpression⟩ := Node.interpolation?_eq_some he
  exact ⟨tree, t, i, e, htree, ht, hi, hexpression⟩

/-- A keyword with an index and a product. -/
theorem Node.parse_unsigiled_index : ∃ tree t i e tree' t' i',
    Node.parse (interpolating (Text.ofString "$class[0] * 2")) = .ok tree ∧ tree.statements = [t] ∧
      t.shape = .string .double [i] ∧ i.shape = .interpolation e ∧
      Node.parse (interpolating (Text.ofString "class[0] * 2")) = .ok tree' ∧
          tree'.statements = [t'] ∧
      t'.shape = .string .double [i'] ∧ i'.shape = .interpolation (e.seen .unsigiled) := by
  obtain ⟨tree, t, i, e, h, ht, hi, he⟩ :=
    Node.interpolation_of_parse (interpolating (Text.ofString "$class[0] * 2")) (by cbv)
  have hr : ∀ c ∈ (Text.ofString "[0] * 2").head?, ¬ isWord c :=
    fun c hc => Option.some.inj hc ▸ (by decide : ¬ isWord '[')
  obtain ⟨tree', t', i', h', ht', hi', he'⟩ :=
    Node.parse_unsigiled (w := Text.ofString "class") (r := Text.ofString "[0] * 2") (by decide)
      (by decide)
      hr (by decide) (.inr (by decide)) h ht hi he
  exact ⟨tree, t, i, e, tree', t', i', h, ht, hi, he, h', ht', hi', he'⟩

/-- A variable has a segment that begins with a digit where a name has none, and after the keyword a
slash opens a regular expression where after the variable it divides. -/
theorem Node.parse_sigiled_only :
    (∃ tree t i e, Node.parse (interpolating (Text.ofString "$a::9")) = .ok tree ∧
      tree.statements = [t] ∧ t.shape = .string .double [i] ∧ i.shape = .interpolation e) ∧
    (Node.parse (interpolating (Text.ofString "a::9"))).toOption = none ∧
    (∃ tree t i e, Node.parse (interpolating (Text.ofString "$if / 2 / 3")) = .ok tree ∧
      tree.statements = [t] ∧ t.shape = .string .double [i] ∧ i.shape = .interpolation e) ∧
    (Node.parse (interpolating (Text.ofString "if / 2 / 3"))).toOption = none :=
  ⟨Node.interpolation_of_parse _ (by cbv), by cbv, Node.interpolation_of_parse _ (by cbv), by cbv⟩

end ManifestTree
