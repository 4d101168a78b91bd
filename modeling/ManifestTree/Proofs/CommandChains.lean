import ManifestTree.Proofs.Chains
import ManifestTree.Proofs.CommandForms
import ManifestTree.Proofs.Settling

/-!
# Chains of `and` and `or`

Operands with `and` and `or` between them can be joined in many ways, by binary expressions as well
as by command forms.  Only one of these trees has no binary expression with `and` or `or` outside
brackets and is grouped as command forms are, and a statement or condition is read as this tree.
-/

namespace ManifestTree

open Parse TokenStream
open ManifestTree.Parser

/-! ## Chains -/

/-- The token is an operand that makes the node by itself: a literal without interpolations, or a
bare name. -/
def Token.Makes (t : Token) (n : Node) : Prop :=
  (∀ g, t.literal? g = some (.ok n)) ∨ t.kind = .name ∧ n = t.named .value

namespace Node

/-- Outside brackets `and` and `or` have the command form, and command forms are grouped. -/
structure CommandFormed (n : Node) : Prop where
  clear : n.Clear
  grouped : ∀ m ∈ n.preorder, m.CommandGrouped

end Node

namespace Parse

/-- An operator `and` or `or` and the operand after it. -/
structure CommandLink where
  /-- The operator. -/
  operator : Token
  /-- The operand after it. -/
  operand : Token
  isCommand : (Operator.command? operator.kind).isSome
  makes : ∃ n, operand.Makes n

/-- The tokens of some links. -/
def commandTokens (links : List CommandLink) : List Token :=
  links.flatMap fun l => [l.operator, l.operand]

@[simp] theorem commandTokens_nil : commandTokens [] = [] := rfl

@[simp] theorem commandTokens_cons (l : CommandLink) (links : List CommandLink) :
    commandTokens (l :: links) = l.operator :: l.operand :: commandTokens links := rfl

theorem commandTokens_length (links : List CommandLink) :
    (commandTokens links).length = 2 * links.length := by
  induction links with
  | nil => rfl
  | cons l links ih => rw [commandTokens_cons, List.length_cons, List.length_cons, ih]; rfl

/-- The node joins the operands among the tokens in order, by either form of the operators. -/
inductive Joined : List Token → Node → Prop
  | operand {t : Token} {n : Node} : t.Makes n → Joined [t] n
  | binary (t : Token) (o : Operator) {ls rs : List Token} {l r : Node} :
      Operator.binary? t.kind = some o → (Operator.command? t.kind).isSome → Joined ls l →
      Joined rs r →
      Joined (ls ++ t :: rs)
        (.mk (l.span.join r.span) [t.leaf] (.binary (Text.ofString o.symbol) l r))
  | command (t : Token) (o : Operator) {ls rs : List Token} {l r : Node} :
      Operator.command? t.kind = some o → Joined ls l → Joined rs r →
      Joined (ls ++ t :: rs)
        (.mk (l.span.join r.span) [t.leaf] (.commandBinary (commandOperator o) l r))

end Parse

/-! ## Operands -/

namespace Node

/-- Nothing below a node is an operator. -/
def Flat (n : Node) : Prop := ∀ m ∈ n.preorder, m.command? = none ∧ ¬ m.isLogical

theorem flat_of_elements {n : Node} (hn : n.command? = none ∧ ¬ n.isLogical)
    (h : ∀ e ∈ n.shape.elements, e.Flat) : n.Flat := by
  intro m hm
  rcases mem_preorder.mp hm with rfl | ⟨l, -, rfl⟩ | ⟨e, he, hm⟩
  · exact hn
  · exact ⟨rfl, Bool.false_ne_true⟩
  · exact h e he m hm

theorem flat_ofName (s : Span) (form : NameForm) (cs : Text) :
    (Node.plain s (.ofName form cs)).Flat := by
  obtain ⟨segments, absolute, h⟩ := @Shape.ofName_eq Node form cs
  rw [h]
  exact flat_of_elements ⟨rfl, Bool.false_ne_true⟩ (List.forall_mem_nil _)

theorem flat_fragment {f : Fragment} (hf : ∀ ts, f.piece ≠ .interpolation ts) (inner : Node) :
    (f.nodeOf inner).Flat := by
  obtain ⟨text, span, piece⟩ := f
  cases piece with
  | «variable» => exact flat_ofName _ _ _
  | interpolation ts => exact absurd rfl (hf ts)
  | _ => exact flat_of_elements ⟨rfl, Bool.false_ne_true⟩ (List.forall_mem_nil _)

end Node

/-- What stands outside the brackets of a shape is one of its elements. -/
theorem Shape.unbracketed_subset (s : Shape Node) : s.unbracketed ⊆ s.elements := by
  cases s with
  | methodCall receiver name arguments block =>
    simp [Shape.unbracketed, Shape.elements, Shape.fields, Field.elements, -Option.mem_toList]
    grind
  | _ => simp [Shape.unbracketed, Shape.elements, Shape.fields, Field.elements]

namespace Node

theorem Exposes.mem_preorder {n m : Node} (h : n.Exposes m) : m ∈ n.preorder := by
  induction h with
  | self n => exact mem_preorder_self n
  | step he _ ih => exact mem_preorder_element (Shape.unbracketed_subset _ he) ih

theorem commandGrouped_of_command? {n : Node} (h : n.command? = none) : n.CommandGrouped := by
  obtain ⟨s, ls, shape⟩ := n
  cases shape with
  | commandBinary => cases h
  | _ => trivial

theorem Flat.commandFormed {n : Node} (h : n.Flat) : n.CommandFormed where
  clear := fun m hm => (h m hm.mem_preorder).2
  grouped := fun m hm => commandGrouped_of_command? (h m hm).1

theorem Flat.commandRank {n : Node} (h : n.Flat) : n.commandRank = 0 := by
  rw [commandRank_eq, (h n (mem_preorder_self n)).1]

/-- The command form of two operands is formed if they are and their ranks admit the operator. -/
theorem commandFormed_command {k : TokenKind} {o : Operator} (ho : Operator.command? k = some o)
    {s : Span} {sign : Leaf} {l r : Node} :
    (Node.mk s [sign] (.commandBinary (commandOperator o) l r)).CommandFormed ↔
      l.CommandFormed ∧ r.CommandFormed ∧ l.commandRank ≤ o.rank ∧ r.commandRank < o.rank := by
  constructor
  · rintro ⟨hclear, hgrouped⟩
    have below (e : Node) (he : e ∈ [l, r]) : e.CommandFormed :=
      ⟨fun m hm => hclear m (.step he hm), fun m hm => hgrouped m (mem_preorder_element he hm)⟩
    exact ⟨below l List.mem_cons_self, below r (List.mem_cons_of_mem _ List.mem_cons_self),
      (commandGrouped_iff ho).mp (hgrouped _ (mem_preorder_self _))⟩
  · rintro ⟨hl, hr, hranks⟩
    refine ⟨clear_of_unbracketed Bool.false_ne_true
      (List.forall_mem_cons.mpr ⟨hl.clear, List.forall_mem_singleton.mpr hr.clear⟩), ?_⟩
    intro m hm
    rcases mem_preorder.mp hm with rfl | ⟨leaf, -, rfl⟩ | ⟨e, he, hbelow⟩
    · exact (commandGrouped_iff ho).mpr hranks
    · trivial
    · rcases List.mem_cons.mp (show e ∈ [l, r] from he) with rfl | he
      · exact hl.grouped m hbelow
      · rw [List.mem_singleton.mp he] at hbelow
        exact hr.grouped m hbelow

end Node

namespace Token.Makes

variable {t : Token} {n n' : Node}

theorem fragments_flat {fs : List Fragment} {ns : List Node}
    (h : Fragment.toNodes Grammar.exhausted fs = .ok ns) : ∀ e ∈ ns, e.Flat := by
  obtain ⟨rfl, hinner⟩ := toNodes_eq h
  refine List.forall_mem_map.mpr fun f hf => Node.flat_fragment (fun ts hts => ?_) _
  cases hinner f hf ts hts

/-- The kinds of tokens that make a node alone. -/
theorem kind_cases (h : t.Makes n) : t.kind = .name ∨
    t.kind ∈ [TokenKind.variable, .integer, .float, .string, .heredoc, .regex, .keyword .true,
      .keyword .false, .keyword .undef, .keyword .default] := by
  rcases h with h | ⟨hk, -⟩
  · have h := h Grammar.exhausted
    unfold Token.literal? at h
    split at h <;> simp_all
  · exact .inl hk

theorem flat (h : t.Makes n) : n.Flat := by
  have leaf (s : Span) (shape : Shape Node) (helements : shape.elements = [])
      (hc : (Node.plain s shape).command? = none) (hl : ¬ (Node.plain s shape).isLogical) :
      (Node.plain s shape).Flat := by
    refine Node.flat_of_elements ⟨hc, hl⟩ ?_
    show ∀ e ∈ shape.elements, _
    rw [helements]
    exact List.forall_mem_nil _
  rcases h with h | ⟨-, rfl⟩
  · have h := h Grammar.exhausted
    unfold Token.literal? at h
    split at h <;> simp only [Option.some.injEq, Except.ok.injEq, reduceCtorEq] at h
    case h_1 => exact h ▸ Node.flat_ofName _ _ _
    case h_2 =>
      unfold Token.integerNode at h
      split at h <;> cases h
      exact leaf _ _ rfl rfl Bool.false_ne_true
    case h_4 =>
      obtain ⟨ns, hns, h⟩ := bind_eq_ok.mp h
      cases h
      refine Node.flat_of_elements ⟨rfl, Bool.false_ne_true⟩ ?_
      show ∀ e ∈ (Shape.string _ _).elements, _
      rw [Shape.elements_string]
      exact fragments_flat hns
    case h_5 tag body _ _ =>
      obtain ⟨ns, hns, h⟩ := bind_eq_ok.mp h
      cases h
      refine Node.flat_of_elements ⟨rfl, Bool.false_ne_true⟩
        (List.forall_mem_cons.mpr ⟨leaf _ _ rfl rfl Bool.false_ne_true, ?_⟩)
      refine List.forall_mem_singleton.mpr
        (Node.flat_of_elements ⟨rfl, Bool.false_ne_true⟩ ?_)
      show ∀ e ∈ (Shape.heredocBody _ _).elements, _
      rw [Shape.elements_heredocBody]
      exact fragments_flat hns
    all_goals exact h ▸ leaf _ _ rfl rfl Bool.false_ne_true
  · unfold Token.named
    split
    · exact Node.flat_ofName _ _ _
    · exact Node.flat_of_elements ⟨rfl, Bool.false_ne_true⟩ (List.forall_mem_nil _)

theorem unique (h : t.Makes n) (h' : t.Makes n') : n = n' := by
  rcases h with h | ⟨hk, rfl⟩ <;> rcases h' with h' | ⟨hk', rfl⟩
  · have := (h Grammar.exhausted).symm.trans (h' Grammar.exhausted)
    simpa using this
  · have := h Grammar.exhausted
    simp [Token.literal?, hk'] at this
  · have := h' Grammar.exhausted
    simp [Token.literal?, hk] at this
  · rfl

/-- No operator is an operand. -/
theorem command?_kind (h : t.Makes n) : Operator.command? t.kind = none := by
  rcases h.kind_cases with hk | hk
  · rw [hk]
    rfl
  · generalize t.kind = k at hk
    revert k
    decide

end Token.Makes

namespace Parse

/-! ## Uniqueness -/

/-- The operators `and` and `or` between operands have a command form. -/
theorem symbol_of_command? {k : TokenKind} {o : Operator} (h : Operator.binary? k = some o)
    (hk : (Operator.command? k).isSome) :
    o.symbol = "and" ∨ o.symbol = "or" :=
  Operator.forall_binary? (P := fun k o => (Operator.command? k).isSome →
    o.symbol = "and" ∨ o.symbol = "or") (by decide) h hk

namespace Joined

variable {ts : List Token} {n : Node}

theorem ne_nil (h : Joined ts n) : ts ≠ [] := by
  cases h <;> simp

/-- A tree that is formed has no operator in the other form. -/
theorem not_formed_binary {s : Span} {t : Token} {o : Operator} {l r : Node}
    (ho : Operator.binary? t.kind = some o) (hk : (Operator.command? t.kind).isSome) :
    ¬ (Node.mk s [t.leaf] (.binary (Text.ofString o.symbol) l r)).CommandFormed := by
  intro h
  refine h.clear _ (.self _) ?_
  rcases symbol_of_command? ho hk with hs | hs <;> simp [Node.isLogical, Node.shape, hs]

/-- No operator of a formed tree binds looser than its root. -/
theorem rank_le (h : Joined ts n) (hn : n.CommandFormed) {t : Token} (ht : t ∈ ts)
    {o : Operator} (ho : Operator.command? t.kind = some o) : o.rank ≤ n.commandRank := by
  induction h with
  | operand hmakes =>
    rw [List.mem_singleton.mp ht, hmakes.command?_kind] at ho
    cases ho
  | binary _ _ hp hk => exact absurd hn (not_formed_binary hp hk)
  | command u p hp _ _ ihl ihr =>
    obtain ⟨hl, hr, hleft, hright⟩ := (Node.commandFormed_command hp).mp hn
    rw [commandRank_commandBinary hp]
    rcases List.mem_append.mp ht with ht | ht
    · exact (ihl hl ht).trans hleft
    rcases List.mem_cons.mp ht with rfl | ht
    · rw [Option.some.inj (ho.symm.trans hp)]
    · exact (ihr hr ht).trans (Nat.le_of_lt hright)

/-- Two formed trees do not split the same tokens at different operators. -/
theorem split_eq {ls rs ls' rs' us : List Token} {r l' : Node} {t t' : Token} {o o' : Operator}
    (ho : Operator.command? t.kind = some o) (ho' : Operator.command? t'.kind = some o')
    (hr : Joined rs r) (hl' : Joined ls' l') (hrf : r.CommandFormed) (hlf' : l'.CommandFormed)
    (hright : r.commandRank < o.rank) (hleft' : l'.commandRank ≤ o'.rank)
    (hls' : ls' = ls ++ t :: us) : t :: rs ≠ t :: us ++ t' :: rs' := by
  intro hrs
  obtain rfl := (List.cons.inj hrs).2
  have := hl'.rank_le hlf' (by simp [hls']) ho
  have := hr.rank_le hrf (by simp) ho'
  omega

/-- Two formed trees with the same tokens have the same operator at the root. -/
theorem root_eq {ls rs ls' rs' : List Token} {l r l' r' : Node} {t t' : Token} {o o' : Operator}
    (ho : Operator.command? t.kind = some o) (ho' : Operator.command? t'.kind = some o')
    (hl : Joined ls l) (hr : Joined rs r) (hl' : Joined ls' l') (hr' : Joined rs' r')
    (hf : l.CommandFormed ∧ r.CommandFormed ∧ l.commandRank ≤ o.rank ∧ r.commandRank < o.rank)
    (hf' : l'.CommandFormed ∧ r'.CommandFormed ∧ l'.commandRank ≤ o'.rank ∧
      r'.commandRank < o'.rank)
    (hts : ls ++ t :: rs = ls' ++ t' :: rs') : ls = ls' ∧ t = t' ∧ rs = rs' := by
  obtain ⟨hlf, hrf, hleft, hright⟩ := hf
  obtain ⟨hlf', hrf', hleft', hright'⟩ := hf'
  -- If the roots differed, each would lie within an operand of the other.
  rcases List.append_eq_append_iff.mp hts with ⟨us, hls', hus⟩ | ⟨us, hls, hus⟩
  · cases us with
    | nil =>
      obtain ⟨rfl, rfl⟩ := List.cons.inj hus
      exact ⟨by rw [hls', List.append_nil], rfl, rfl⟩
    | cons u us =>
      obtain rfl := (List.cons.inj hus).1
      exact absurd hus (split_eq ho ho' hr hl' hrf hlf' hright hleft' hls')
  · cases us with
    | nil =>
      obtain ⟨rfl, rfl⟩ := List.cons.inj hus
      exact ⟨by rw [hls, List.append_nil], rfl, rfl⟩
    | cons u us =>
      obtain rfl := (List.cons.inj hus).1
      exact absurd hus (split_eq ho' ho hr' hl hrf' hlf hright' hleft hls)

/-- A tree with an operator has more than one token. -/
theorem ne_single (h : Joined ts n) (t u : Token) (us : List Token) : [t] ≠ ts ++ u :: us := by
  obtain ⟨v, vs, rfl⟩ := List.exists_cons_of_ne_nil h.ne_nil
  simp

/-- Only one tree with some tokens in order is formed. -/
theorem unique (h : Joined ts n) (hn : n.CommandFormed) {n' : Node} (h' : Joined ts n')
    (hn' : n'.CommandFormed) : n = n' := by
  induction h generalizing n' with
  | @operand t _ hmakes =>
    generalize hts : [t] = ts at h'
    cases h' with
    | operand hmakes' => cases hts; exact hmakes.unique hmakes'
    | binary u _ _ _ hl | command u _ _ hl => exact absurd hts (hl.ne_single t u _)
  | binary _ _ hp hk => exact absurd hn (not_formed_binary hp hk)
  | command t o ho hl hr ihl ihr =>
    generalize hts : _ ++ t :: _ = ts at h'
    cases h' with
    | @operand u _ => exact absurd hts.symm (hl.ne_single u t _)
    | binary _ _ hp hk => exact absurd hn' (not_formed_binary hp hk)
    | command t' o' ho' hl' hr' =>
      have hf := (Node.commandFormed_command ho).mp hn
      have hf' := (Node.commandFormed_command ho').mp hn'
      obtain ⟨rfl, rfl, rfl⟩ := root_eq ho ho' hl hr hl' hr' hf hf' hts
      obtain rfl : o = o' := Option.some.inj (ho.symm.trans ho')
      rw [ihl hf.1 hl' hf'.1, ihr hf.2.1 hr' hf'.2.1]

end Joined

/-! ## Parsing -/

/-- What may follow an operand of a chain. -/
def FollowsOperand (k : TokenKind) : Prop :=
  EndsOperand k ∧ k ≠ .symbol .leftParen ∧
    (Operator.binary? k = none ∨ (Operator.command? k).isSome)

/-- What may follow a chain. -/
def EndsCommand (k : TokenKind) : Prop :=
  EndsOperand k ∧ k ≠ .symbol .leftParen ∧ Operator.binary? k = none

theorem EndsCommand.command? {k : TokenKind} (h : EndsCommand k) : Operator.command? k = none := by
  obtain ⟨-, -, h⟩ := h
  unfold Operator.command?
  split
  · cases h
  · cases h
  · rfl

theorem followsOperand_of_command? {k : TokenKind} (h : (Operator.command? k).isSome) :
    FollowsOperand k := by
  have hk : k = .keyword .and ∨ k = .keyword .or := by
    unfold Operator.command? at h
    split at h <;> simp_all
  refine ⟨⟨?_, ?_, ?_⟩, ?_, .inr h⟩ <;> rcases hk with rfl | rfl <;> exact TokenKind.noConfusion

variable {g : Grammar} {scope : Scope} {s s' : TokenStream} {n : Node}

/-- An operand that nothing goes on with is read alone. -/
theorem makes_gives (g : Grammar) (scope : Scope) {t : Token} {more : List Token}
    (ht : t.Makes n) (hs : s.rest = t :: more) (hnext : FollowsOperand s.tail.current.kind) :
    Gives (binary g Operator.expressionRank true) scope s n s.tail := by
  have hcurrent : s.current = t := by simp [TokenStream.current, hs]
  have hunary : Operator.unary? t.kind = none := by
    rcases ht.kind_cases with hk | hk
    · rw [hk]
      rfl
    · generalize t.kind = k at hk
      revert k
      decide
  obtain ⟨hends, hparen, hoperator⟩ := hnext
  have hprimary : Gives (primary g .value) scope s n s.tail := by
    rcases ht with h | ⟨hk, rfl⟩
    · simp [primary, hcurrent, h g]
    · have hnone : t.literal? g = none := by simp [Token.literal?, hk]
      simp only [primary, bareword, gives_bind, gives_current]
      refine ⟨t, s, ⟨hcurrent.symm, rfl⟩, ?_⟩
      simp [hnone, hk, hcurrent, hparen, Token.named]
      split <;> simp [*]
  have hleft : Gives (unary g .value) scope s n s.tail := by
    simp [unary, hcurrent, hunary, operand]
    exact ⟨n, s.tail, hprimary, postfixTail_gives hends⟩
  have hclimb : Gives (climb g Operator.expressionRank true n) scope s.tail n s.tail := by
    refine repeatFrom_stops ?_
    simp only [gives_bind, gives_current]
    refine ⟨_, _, ⟨rfl, rfl⟩, ?_⟩
    rcases hoperator with h | h
    · simp [h]
    · split <;> simp [h]
  simp only [binary, binaryIn, gives_bind]
  exact ⟨n, s.tail, hleft, hclimb⟩

/-- What reading a chain has read so far: a formed tree of some of its tokens, with links after
them that the stream goes on with. -/
structure Joining (total more : List Token) (last : Token) (maxRank : Nat) (n : Node)
    (s : TokenStream) (pending : List CommandLink) : Prop where
  split : ∃ ts, total = ts ++ commandTokens pending ∧ Joined ts n
  formed : n.CommandFormed
  rank : n.commandRank ≤ maxRank
  rest : s.rest = commandTokens pending ++ more
  last : s.last = last

section Climbing

variable {more : List Token} {last : Token} {bound maxRank : Nat} {total : List Token}
  {left : Node} {pending : List CommandLink}

theorem followsOperand_current (hends : EndsCommand (more.headD last).kind)
    (hrest : s.rest = commandTokens pending ++ more) (hlast : s.last = last) :
    FollowsOperand s.current.kind := by
  cases pending with
  | nil =>
    rw [TokenStream.current, hrest, hlast]
    exact ⟨hends.1, hends.2.1, .inl hends.2.2⟩
  | cons l pending =>
    have hcurrent : s.current = l.operator := by simp [TokenStream.current, hrest]
    rw [hcurrent]
    exact followsOperand_of_command? l.isCommand

/-- The grammar reads chains with fewer links than a bound. -/
def JoinsChains (g : Grammar) (scope : Scope) (more : List Token) (last : Token)
    (bound : Nat) : Prop :=
  ∀ (first : Token) (links : List CommandLink) (s : TokenStream) (maxRank : Nat),
    (∃ n, first.Makes n) → links.length < bound →
    s.rest = first :: commandTokens links ++ more → s.last = last →
    ∃ n s', Gives (g.command maxRank) scope s n s' ∧ s'.StopsCommand maxRank ∧
      ∃ pending, Joining (first :: commandTokens links) more last maxRank n s' pending ∧
        pending <:+ links

/-- A link joins what was read so far with what is read after its operator. -/
theorem Joining.join {l : CommandLink} {o : Operator} {m r : Node} {s₁ s₂ : TokenStream}
    {links pending : List CommandLink}
    (hm : Joining total more last maxRank m s₁ (l :: links))
    (ho : Operator.command? l.operator.kind = some o) (hrank : o.rank ≤ maxRank)
    (hleft : m.commandRank ≤ o.rank)
    (hr : Joining (l.operand :: commandTokens links) more last o.rightRank r s₂ pending) :
    Joining total more last maxRank
      (.mk (m.span.join r.span) [l.operator.leaf] (.commandBinary (commandOperator o) m r)) s₂
      pending := by
  obtain ⟨ts, htotal, hts⟩ := hm.split
  obtain ⟨us, hus, hr'⟩ := hr.split
  have hright : r.commandRank < o.rank := by
    have := Operator.command?_rightRank ho
    have := hr.rank
    omega
  constructor
  case split =>
    refine ⟨ts ++ l.operator :: us, ?_, .command _ o ho hts hr'⟩
    rw [htotal, commandTokens_cons, hus]
    simp
  case formed => exact (Node.commandFormed_command ho).mpr ⟨hm.formed, hr.formed, hleft, hright⟩
  case rank => rwa [commandRank_commandBinary ho]
  case rest => exact hr.rest
  case last => exact hr.last

/-- Reading on through a chain takes links as long as the ranks allow. -/
theorem climbCommand_gives (hends : EndsCommand (more.headD last).kind)
    (hg : JoinsChains g scope more last bound)
    (h : Joining total more last maxRank left s pending) (hbound : pending.length ≤ bound)
    (hleft : left.commandRank = 0) :
    ∃ n s', Gives (climbCommand g maxRank left) scope s n s' ∧ s'.StopsCommand maxRank ∧
      ∃ p, Joining total more last maxRank n s' p ∧ p <:+ pending := by
  refine repeatFrom_gives
    (fun m s₁ => ∃ p, Joining total more last maxRank m s₁ p ∧ p <:+ pending ∧
      ∀ o, Operator.command? s₁.current.kind = some o → m.commandRank ≤ o.rank) _ ?_
    ⟨pending, h, List.suffix_refl _, fun o _ => hleft ▸ Nat.zero_le _⟩
  rintro m s₁ ⟨p, hm, hsuffix, hadmits⟩
  cases p with
  | nil =>
    have hcurrent : Operator.command? s₁.current.kind = none := by
      rw [TokenStream.current, hm.rest, hm.last]
      exact hends.command?
    refine .inl ⟨m, s₁, ?_, fun o ho => by simp [hcurrent] at ho, [], hm, hsuffix⟩
    simp only [gives_bind, gives_current]
    exact ⟨_, _, ⟨rfl, rfl⟩, by simp [hcurrent]⟩
  | cons l p =>
    obtain ⟨o, ho⟩ := Option.isSome_iff_exists.mp l.isCommand
    have hcurrent : s₁.current = l.operator := by simp [TokenStream.current, hm.rest]
    by_cases hstop : maxRank < o.rank
    · refine .inl ⟨m, s₁, ?_, ?_, l :: p, hm, hsuffix⟩
      · simp only [gives_bind, gives_current]
        exact ⟨_, _, ⟨rfl, rfl⟩, by simp [hcurrent, ho, hstop]⟩
      · intro o' ho'
        rw [hcurrent] at ho'
        obtain rfl : o = o' := Option.some.inj (ho.symm.trans ho')
        exact hstop
    · have hleft := hadmits o (hcurrent ▸ ho)
      have htail : s₁.tail.rest = l.operand :: commandTokens p ++ more := by
        simp [TokenStream.tail, hm.rest]
      have hlast : s₁.tail.last = last := by
        simp [TokenStream.tail, hm.rest, hm.last]
      have hlength : (l :: p).length ≤ bound := hsuffix.length_le.trans hbound
      obtain ⟨r, s₂, hr, hstops, q, hq, hqsuffix⟩ := hg l.operand p s₁.tail o.rightRank
        l.makes hlength htail hlast
      refine .inr ⟨_, s₂, ?_, ?_, q, hm.join ho (by omega) hleft hq,
        (hqsuffix.trans (List.suffix_cons l p)).trans hsuffix, ?_⟩
      · simp only [gives_bind, gives_current]
        refine ⟨_, _, ⟨rfl, rfl⟩, ?_⟩
        simpa [hcurrent, ho, hstop] using hr
      · have := hqsuffix.length_le
        rw [hq.rest, hm.rest, List.length_append, List.length_append, commandTokens_length,
          commandTokens_length, List.length_cons]
        omega
      · intro o' ho'
        have := hstops o' ho'
        have := Operator.command?_rightRank ho
        rw [commandRank_commandBinary ho]
        omega

/-- A statement expression is read through a chain if the grammar reads shorter ones. -/
theorem command_gives (maxRank : Nat) (hends : EndsCommand (more.headD last).kind)
    (hg : JoinsChains g scope more last bound) {first : Token} {links : List CommandLink}
    (hfirst : ∃ n, first.Makes n) (hlinks : links.length ≤ bound)
    (hs : s.rest = first :: commandTokens links ++ more) (hlast : s.last = last) :
    ∃ n s', Gives (command g maxRank) scope s n s' ∧ s'.StopsCommand maxRank ∧
      ∃ pending, Joining (first :: commandTokens links) more last maxRank n s' pending ∧
        pending <:+ links := by
  obtain ⟨left, hmakes⟩ := hfirst
  have htail : s.tail.rest = commandTokens links ++ more := by simp [TokenStream.tail, hs]
  have htlast : s.tail.last = last := by simp [TokenStream.tail, hs, hlast]
  have hleft := makes_gives g scope hmakes hs (followsOperand_current hends htail htlast)
  have hzero := hmakes.flat.commandRank
  have hjoining : Joining (first :: commandTokens links) more last maxRank left s.tail links :=
    ⟨⟨[first], rfl, .operand hmakes⟩, hmakes.flat.commandFormed, hzero ▸ Nat.zero_le _, htail,
      htlast⟩
  obtain ⟨n, s', hn, hrest⟩ := climbCommand_gives hends hg hjoining hlinks hzero
  refine ⟨n, s', ?_, hrest⟩
  simp only [command, gives_bind]
  exact ⟨left, s.tail, hleft, hn⟩

/-- The grammar with a bound reads every chain with fewer links. -/
theorem grammar_joins (hends : EndsCommand (more.headD last).kind) (bound : Nat) :
    JoinsChains (grammar bound) scope more last bound := by
  induction bound with
  | zero => exact fun _ _ _ _ _ hlinks => absurd hlinks (Nat.not_lt_zero _)
  | succ bound ih =>
    intro first links s maxRank hfirst hlinks hs hlast
    exact command_gives maxRank hends ih hfirst (Nat.le_of_lt_succ hlinks) hs hlast

end Climbing

/-- A statement expression reads all of a chain as a formed tree. -/
theorem grammar_command_gives (scope : Scope) {more : List Token} {bound : Nat} {first : Token}
    {links : List CommandLink} (hends : EndsCommand (more.headD s.last).kind)
    (hfirst : ∃ n, first.Makes n) (hlinks : links.length ≤ bound)
    (hs : s.rest = first :: commandTokens links ++ more) :
    ∃ n s', Gives (command (grammar bound) Operator.commandRank) scope s n s' ∧ s'.rest = more ∧
      s'.last = s.last ∧ Joined (first :: commandTokens links) n ∧ n.CommandFormed := by
  obtain ⟨n, s', hn, hstops, pending, hjoining, hsuffix⟩ :=
    command_gives Operator.commandRank hends (grammar_joins hends bound) hfirst
      hlinks hs rfl
  obtain ⟨ts, htotal, hjoined⟩ := hjoining.split
  cases pending with
  | nil =>
    rw [commandTokens_nil, List.append_nil] at htotal
    exact ⟨n, s', hn, hjoining.rest, hjoining.last, htotal ▸ hjoined, hjoining.formed⟩
  | cons l pending =>
    -- The parser would have gone on with the operator of the next link.
    obtain ⟨o, ho⟩ := Option.isSome_iff_exists.mp l.isCommand
    have hcurrent : s'.current = l.operator := by simp [TokenStream.current, hjoining.rest]
    have := hstops o (hcurrent ▸ ho)
    have : o.rank ≤ Operator.commandRank := by
      unfold Operator.command? at ho
      split at ho <;> cases ho <;> decide
    omega

theorem statement_gives (scope : Scope) {bound : Nat} {first : Token} {links : List CommandLink}
    (hlast : s.last.kind = .endOfInput) (hfirst : ∃ n, first.Makes n)
    (hlinks : links.length ≤ bound) (hs : s.rest = first :: commandTokens links) :
    ∃ n s', Gives (statement (grammar bound)) scope s n s' ∧ s'.rest = [] ∧ s'.last = s.last ∧
      Joined (first :: commandTokens links) n ∧ n.CommandFormed := by
  have hends : EndsCommand (([] : List Token).headD s.last).kind := by
    show EndsCommand s.last.kind
    rw [hlast]
    exact ⟨⟨TokenKind.noConfusion, TokenKind.noConfusion, TokenKind.noConfusion⟩,
      TokenKind.noConfusion, rfl⟩
  obtain ⟨n, s', hn, hrest, hl, hjoined, hformed⟩ :=
    grammar_command_gives scope hends hfirst hlinks (by rw [hs, List.append_nil])
  obtain ⟨m, hm⟩ := hfirst
  have hcurrent : s.current = first := by simp [TokenStream.current, hs]
  have hsecond : s.second.kind ≠ .symbol .leftBrace := by
    cases links with
    | nil => simp [TokenStream.second, hs, hlast]
    | cons l links =>
      intro h
      have := l.isCommand
      simp [TokenStream.second, hs] at h
      simp [h, Operator.command?] at this
  have hunchained : Gives (unchained (grammar bound)) scope s n s' := by
    simp only [unchained, gives_bind, gives_current, gives_second]
    refine ⟨_, _, ⟨rfl, rfl⟩, _, _, ⟨rfl, rfl⟩, ?_⟩
    rw [hcurrent]
    have hkinds := hm.kind_cases
    simp only [List.mem_cons, List.not_mem_nil, or_false] at hkinds
    rcases hkinds with hk | hk | hk | hk | hk | hk | hk | hk | hk | hk | hk <;>
      simpa [hk, beginsResource, hsecond] using hn
  refine ⟨n, s', ?_, hrest, hl, hjoined, hformed⟩
  simp only [statement, gives_bind]
  refine ⟨n, s', hunchained, ?_⟩
  have hcurrent' : s'.current.kind = .endOfInput := by
    simp [TokenStream.current, hrest, hl, hlast]
  have hchain : Gives (chain (grammar bound) n) scope s' n s' := by
    refine repeatFrom_stops ?_
    simp only [gives_bind, gives_current]
    exact ⟨_, _, ⟨rfl, rfl⟩, by simp [hcurrent', chainArrow?]⟩
  split
  · exact hchain
  · simp

/-- A list of one item. -/
theorem untilClosed_single {α σ : Type} {closes : TokenKind → Bool}
    {item : σ → Parser (α × σ)} {x y : σ} {a : α} (hs : ¬ closes s.current.kind)
    (h : Gives (item x) scope s (a, y) s') (hlength : s'.rest.length < s.rest.length)
    (hs' : closes s'.current.kind) : Gives (untilClosed closes item x) scope s ([a], y) s' := by
  have hloop : ∃ r t, Gives (untilClosed closes item x) scope s r t ∧ r = ([a], y) ∧ t = s' := by
    refine repeatFrom_gives (fun z t => z = ([], x) ∧ t = s ∨ z = ([a], y) ∧ t = s') _ ?_
      (.inl ⟨rfl, rfl⟩)
    rintro z t (⟨rfl, rfl⟩ | ⟨rfl, rfl⟩)
    · refine .inr ⟨([a], y), s', ?_, hlength, .inr ⟨rfl, rfl⟩⟩
      simp only [gives_bind, gives_current]
      exact ⟨_, _, ⟨rfl, rfl⟩, by simpa [hs] using h⟩
    · refine .inl ⟨([a], y), t, ?_, rfl, rfl⟩
      simp only [gives_bind, gives_current]
      exact ⟨_, _, ⟨rfl, rfl⟩, by simp [hs']⟩
  obtain ⟨_, _, hr, rfl, rfl⟩ := hloop
  exact hr

theorem length_le_countAll (ts : List Token) : ts.length ≤ Token.countAll ts := by
  induction ts with
  | nil => exact Nat.zero_le _
  | cons t ts ih =>
    have := t.count_pos
    rw [List.length_cons, Token.countAll]
    omega

/-- Tokens that are a chain make one statement, which is a formed tree of them. -/
theorem tokens_chain {first : Token} (hfirst : ∃ n, first.Makes n) (links : List CommandLink)
    (p : Position) :
    ∃ n, Parse.tokens (first :: commandTokens links ++ [Token.endAt p]) = .ok [n] ∧
      Joined (first :: commandTokens links) n ∧ n.CommandFormed := by
  generalize hts : first :: commandTokens links ++ [Token.endAt p] = ts
  have hrest : (TokenStream.ofTokens ts).rest = first :: commandTokens links := by
    rw [← hts]
    exact List.dropLast_concat
  have hlast : (TokenStream.ofTokens ts).last.kind = .endOfInput := by
    rw [← hts, TokenStream.ofTokens, List.getLast?_concat]
    rfl
  have hlinks : links.length ≤ Token.countAll ts + 1 := by
    have hle := length_le_countAll ts
    rw [← hts, List.length_append, List.length_cons, commandTokens_length] at hle
    rw [← hts]
    omega
  obtain ⟨n, s', hn, hrest', hlast', hjoined, hformed⟩ :=
    statement_gives ⟨true⟩ hlast hfirst hlinks hrest
  have hmore : (TokenStream.ofTokens ts).current.kind ≠ .endOfInput := by
    obtain ⟨m, hm⟩ := hfirst
    intro hk
    have hcurrent : (TokenStream.ofTokens ts).current = first := by
      simp [TokenStream.current, hrest]
    rw [hcurrent] at hk
    have hkinds := hm.kind_cases
    simp [hk] at hkinds
  have hdone : s'.current.kind = .endOfInput := by
    simp [TokenStream.current, hrest', hlast', hlast]
  have hshorter : s'.rest.length < (TokenStream.ofTokens ts).rest.length := by
    rw [hrest', hrest]
    exact Nat.zero_lt_succ _
  have hlist : Gives (statements (grammar (Token.countAll ts + 1))) ⟨true⟩
      (TokenStream.ofTokens ts) [n] s' := by
    simp only [statements, gives_bind, gives_pure]
    refine ⟨([n], ()), s', untilClosed_single (by simpa using hmore) ?_ hshorter
      (by simpa using hdone), rfl, rfl⟩
    simp only [gives_bind, gives_pure]
    exact ⟨n, s', hn, rfl, rfl⟩
  exact ⟨n, runOn_eq_ok.mpr ⟨s', hlist⟩, hjoined, hformed⟩

end Parse

/-- At the places of statements and conditions `and` and `or` have the command form.  In a parsed
tree no binary expression has one of them outside brackets there, command forms group to the left
with `and` binding tighter, and operands and operators stand in the order of the source.  Of the
trees that join the operands of a chain only one is like that; a condition and a source that are
the chain are parsed as this tree. -/
theorem Node.parse_command_forms :
    (∀ source tree, Node.parse source = .ok tree → ∀ n ∈ tree.preorder,
      (∀ e ∈ n.commands, ∀ m, e.Exposes m → ¬ m.isLogical) ∧ n.CommandGrouped ∧
        n.inOrder.Pairwise fun a b => a.span.stop ≤ b.span.start) ∧
    ∀ (first : Token) (links : List CommandLink), (∃ n, first.Makes n) →
      ∃ n, Joined (first :: commandTokens links) n ∧ n.CommandFormed ∧
        (∀ n', Joined (first :: commandTokens links) n' → n'.CommandFormed → n' = n) ∧
        (∀ source comments p,
          Token.scan source = .ok (first :: commandTokens links ++ [Token.endAt p], comments) →
          Node.parse source = .ok (Node.plain ⟨0, source.length, 1, 1⟩
            (.manifest [n] (comments.map Token.commentNode)))) ∧
        ∀ (scope : Scope) (s : TokenStream) (more : List Token) (bound : Nat),
          s.rest = first :: commandTokens links ++ more →
          EndsCommand (more.headD s.last).kind → links.length ≤ bound →
          ∃ s', Gives (condition (grammar bound)) scope s n s' ∧ s'.rest = more := by
  constructor
  · intro source tree h n hn
    obtain ⟨tokens, comments, statements, hp⟩ := Node.parse_parsed h
    refine ⟨fun e he => ?_, ?_, hp.inOrder hn⟩
    · rcases hp.constituent.preorder n hn with hc | ⟨l, rfl⟩
      · obtain ⟨us, hd⟩ := hc.commands e he
        exact hd.clear rfl
      · exact absurd he List.not_mem_nil
    · rcases hp.constituent.preorder n hn with hc | ⟨l, rfl⟩
      · exact hc.commandGrouped
      · trivial
  · intro first links hfirst
    obtain ⟨n, htokens, hjoined, hformed⟩ := tokens_chain hfirst links Position.start
    have hunique : ∀ n', Joined (first :: commandTokens links) n' → n'.CommandFormed → n' = n :=
      fun n' h' hn' => h'.unique hn' hjoined hformed
    refine ⟨n, hjoined, hformed, hunique, fun source comments p hscan => ?_,
      fun scope s more bound hs hends hlinks => ?_⟩
    · obtain ⟨n', htokens', hjoined', hformed'⟩ := tokens_chain hfirst links p
      obtain rfl := hunique n' hjoined' hformed'
      refine bind_eq_ok.mpr ⟨_, hscan, ?_⟩
      exact bind_eq_ok.mpr ⟨_, htokens', rfl⟩
    · obtain ⟨n', s', hn, hrest, -, hjoined', hformed'⟩ :=
        grammar_command_gives ⟨false⟩ hends hfirst hlinks hs
      obtain rfl := hunique n' hjoined' hformed'
      exact ⟨s', hn, hrest⟩

/-- A condition with both operators in a conditional, and the same chain as a statement. -/
theorem Node.parse_command_forms_or :
    (∃ tree, Node.parse (Text.ofString "if $a or $b and $c \x7b\x7d\n") = .ok tree ∧
      tree.preorder.length = 13 ∧ ∀ n ∈ tree.preorder,
        (∀ e ∈ n.commands, ∀ m, e.Exposes m → ¬ m.isLogical) ∧ n.CommandGrouped ∧
          n.inOrder.Pairwise fun a b => a.span.stop ≤ b.span.start) ∧
    ∃ n, n.CommandFormed ∧ Node.parse (Text.ofString "$a or $b and $c") =
        .ok (Node.plain ⟨0, 15, 1, 1⟩ (.manifest [n] [])) ∧
      ∃ s', Gives (condition (grammar 2)) ⟨true⟩
      ⟨[.mk .variable [.char '$', .char 'a'] ⟨0, 2, 1, 1⟩ .plain,
        .mk (.keyword .or) [.char 'o', .char 'r'] ⟨3, 5, 1, 4⟩ .plain,
        .mk .variable [.char '$', .char 'b'] ⟨6, 8, 1, 7⟩ .plain,
        .mk (.keyword .and) [.char 'a', .char 'n', .char 'd'] ⟨9, 12, 1, 10⟩ .plain,
        .mk .variable [.char '$', .char 'c'] ⟨13, 15, 1, 14⟩ .plain],
        Token.endAt ⟨15, 1, 16⟩, none⟩ n s' ∧
      s'.rest = [] := by
  have hrun : (Node.parse (Text.ofString "if $a or $b and $c \x7b\x7d\n")).toOption.map
      (fun tree => tree.preorder.length) = some 13 := by cbv
  obtain ⟨tree, hparse, hlength⟩ := exists_ok_of_map hrun
  have hmakes (t : Token) (h : t.kind = .variable) : ∃ n, t.Makes n :=
    ⟨t.variableNode, .inl fun g => by simp [Token.literal?, h]⟩
  obtain ⟨n, -, hformed, -, hsource, hcondition⟩ := Node.parse_command_forms.2
    (.mk .variable [.char '$', .char 'a'] ⟨0, 2, 1, 1⟩ .plain)
    [⟨.mk (.keyword .or) [.char 'o', .char 'r'] ⟨3, 5, 1, 4⟩ .plain,
        .mk .variable [.char '$', .char 'b'] ⟨6, 8, 1, 7⟩ .plain, rfl, hmakes _ rfl⟩,
      ⟨.mk (.keyword .and) [.char 'a', .char 'n', .char 'd'] ⟨9, 12, 1, 10⟩ .plain,
        .mk .variable [.char '$', .char 'c'] ⟨13, 15, 1, 14⟩ .plain, rfl, hmakes _ rfl⟩]
      (hmakes _ rfl)
  have hends : EndsCommand (Token.endAt ⟨15, 1, 16⟩).kind :=
    ⟨⟨TokenKind.noConfusion, TokenKind.noConfusion, TokenKind.noConfusion⟩,
      TokenKind.noConfusion, rfl⟩
  exact ⟨⟨tree, hparse, hlength, Node.parse_command_forms.1 _ tree hparse⟩, n, hformed,
    hsource (Text.ofString "$a or $b and $c") [] ⟨15, 1, 16⟩ (by cbv),
    hcondition ⟨true⟩ _ [] 2 rfl hends (Nat.le_refl 2)⟩

end ManifestTree
