import ManifestTree.Parse.Statement
import ManifestTree.Proofs.Grouping

/-!
# Chains of operators

A chain is an operand, and operators each with an operand after it.  Many trees have the tokens of
a chain in order, one for every way to put brackets.  Only one of them is grouped by the ranks of
its operators: its root is the operator of the loosest rank, the last of them if they group to the
left and the first if they group to the right.  The parser of binary expressions answers this tree.
-/

namespace ManifestTree

open Parse TokenStream
open ManifestTree.Parser

/-! ## Chains -/

/-- A variable or an integer literal. -/
def Token.IsOperand (t : Token) : Prop :=
  t.kind = .variable ∨ t.kind = .integer ∧ (Literal.integer? t.text).isSome

/-- An operator between operands other than the assignment. -/
def Token.IsLink (t : Token) : Prop :=
  (Operator.binary? t.kind).isSome ∧ t.kind ≠ .symbol .equals

namespace Parse

/-- An operator and the operand after it. -/
structure Link where
  /-- The operator. -/
  operator : Token
  /-- The operand after it. -/
  operand : Token
  isLink : operator.IsLink
  isOperand : operand.IsOperand

/-- The tokens of some links. -/
def linkTokens (links : List Link) : List Token := links.flatMap fun l => [l.operator, l.operand]

@[simp] theorem linkTokens_nil : linkTokens [] = [] := rfl

@[simp] theorem linkTokens_cons (l : Link) (links : List Link) :
    linkTokens (l :: links) = l.operator :: l.operand :: linkTokens links := rfl

theorem linkTokens_length (links : List Link) : (linkTokens links).length = 2 * links.length := by
  induction links with
  | nil => rfl
  | cons l links ih => rw [linkTokens_cons, List.length_cons, List.length_cons, ih]; rfl

/-- The node is a tree of binary expressions with the tokens in order. -/
inductive Chained : List Token → Node → Prop
  | variable (t : Token) : t.kind = .variable → Chained [t] t.variableNode
  | integer (t : Token) (n : Nat) : t.kind = .integer → Literal.integer? t.text = some n →
      Chained [t] (Node.plain t.span (.integer n))
  | binary (t : Token) (o : Operator) {ls rs : List Token} {l r : Node} :
      Operator.binary? t.kind = some o → t.kind ≠ .symbol .equals → Chained ls l →
      Chained rs r →
      Chained (ls ++ t :: rs)
        (.mk (l.span.join r.span) [t.leaf] (.binary (Text.ofString o.symbol) l r))

/-! ## Uniqueness -/

namespace Chained

variable {ts : List Token} {n : Node}

theorem ne_nil (h : Chained ts n) : ts ≠ [] := by
  cases h <;> simp

theorem grouped_binary {s : Span} {t : Token} {o : Operator} {l r : Node}
    (ho : Operator.binary? t.kind = some o)
    (h : ∀ m ∈ (Node.mk s [t.leaf] (.binary (Text.ofString o.symbol) l r)).preorder, m.Grouped) :
    o.admitsLeft l.rank ∧ o.admitsRight r.rank ∧ (∀ m ∈ l.preorder, m.Grouped) ∧
      ∀ m ∈ r.preorder, m.Grouped := by
  obtain ⟨o', ho', hl, hr, -⟩ := h _ (Node.mem_preorder.mpr (.inl rfl))
  obtain rfl : o = o' := Option.some.inj ((Operator.named?_of_binary? ho).symm.trans ho')
  have below (e : Node) (he : e ∈ (Shape.binary (Text.ofString o.symbol) l r).elements) :
      ∀ m ∈ e.preorder, m.Grouped :=
    fun m hm => h m (Node.mem_preorder.mpr (.inr (.inr ⟨e, he, hm⟩)))
  exact ⟨hl, hr, below l (by simp [Shape.elements, Shape.fields, Field.elements]),
    below r (by simp [Shape.elements, Shape.fields, Field.elements])⟩

/-- No operator of a grouped tree binds looser than its root. -/
theorem rank_le (h : Chained ts n) (hg : ∀ m ∈ n.preorder, m.Grouped) {t : Token} (ht : t ∈ ts)
    {o : Operator} (ho : Operator.binary? t.kind = some o) : o.rank ≤ n.rank := by
  induction h with
  | «variable» u hu | integer u _ hu =>
    rw [List.mem_singleton.mp ht, hu] at ho
    cases ho
  | binary u p hp _ hls hrs ihl ihr =>
    obtain ⟨hl, hr, hgl, hgr⟩ := grouped_binary hp hg
    obtain ⟨hl, hr⟩ := Operator.rank_le_of_admits hl hr
    rw [Node.rank_binary hp]
    rcases List.mem_append.mp ht with ht | ht
    · exact (ihl hgl ht).trans hl
    rcases List.mem_cons.mp ht with rfl | ht
    · rw [Option.some.inj (ho.symm.trans hp)]
    · exact (ihr hgr ht).trans hr

/-- Two grouped trees do not split the same tokens at different operators. -/
theorem split_eq {ls rs ls' rs' : List Token} {r l' : Node} {t t' : Token} {o o' : Operator}
    (ho : Operator.binary? t.kind = some o) (ho' : Operator.binary? t'.kind = some o')
    (hr : Chained rs r) (hl' : Chained ls' l')
    (hgr : ∀ m ∈ r.preorder, m.Grouped) (hgl' : ∀ m ∈ l'.preorder, m.Grouped)
    (hright : o.admitsRight r.rank) (hleft' : o'.admitsLeft l'.rank)
    {us : List Token} (hls' : ls' = ls ++ t :: us) : t :: rs ≠ t :: us ++ t' :: rs' := by
  intro hrs
  obtain rfl := (List.cons.inj hrs).2
  have hrank := hl'.rank_le hgl' (by simp [hls']) ho
  have hrank' := hr.rank_le hgr (by simp) ho'
  have hassoc := Operator.associativity_eq ho ho'
  unfold Operator.admitsRight at hright
  unfold Operator.admitsLeft at hleft'
  split at hright <;> split at hleft' <;> simp_all <;> omega

/-- Two grouped trees with the same tokens have the same operator at the root. -/
theorem root_eq {ls rs ls' rs' : List Token} {l r l' r' : Node} {t t' : Token} {o o' : Operator}
    (ho : Operator.binary? t.kind = some o) (ho' : Operator.binary? t'.kind = some o')
    (hl : Chained ls l) (hr : Chained rs r) (hl' : Chained ls' l') (hr' : Chained rs' r')
    (hg : ∀ m ∈ (Node.mk (l.span.join r.span) [t.leaf]
      (.binary (Text.ofString o.symbol) l r)).preorder, m.Grouped)
    (hg' : ∀ m ∈ (Node.mk (l'.span.join r'.span) [t'.leaf]
      (.binary (Text.ofString o'.symbol) l' r')).preorder, m.Grouped)
    (hts : ls ++ t :: rs = ls' ++ t' :: rs') : ls = ls' ∧ t = t' ∧ rs = rs' := by
  obtain ⟨hleft, hright, hgl, hgr⟩ := grouped_binary ho hg
  obtain ⟨hleft', hright', hgl', hgr'⟩ := grouped_binary ho' hg'
  -- If the roots differed, each would lie within an operand of the other.
  rcases List.append_eq_append_iff.mp hts with ⟨us, hls', hus⟩ | ⟨us, hls, hus⟩
  · cases us with
    | nil =>
      obtain ⟨rfl, rfl⟩ := List.cons.inj hus
      exact ⟨by rw [hls', List.append_nil], rfl, rfl⟩
    | cons u us =>
      obtain rfl := (List.cons.inj hus).1
      exact absurd hus (split_eq ho ho' hr hl' hgr hgl' hright hleft' hls')
  · cases us with
    | nil =>
      obtain ⟨rfl, rfl⟩ := List.cons.inj hus
      exact ⟨by rw [hls, List.append_nil], rfl, rfl⟩
    | cons u us =>
      obtain rfl := (List.cons.inj hus).1
      exact absurd hus (split_eq ho' ho hr' hl hgr' hgl hright' hleft hls)

/-- A tree with an operator has more than one token. -/
theorem ne_single (h : Chained ts n) (t u : Token) (us : List Token) : [t] ≠ ts ++ u :: us := by
  obtain ⟨v, vs, rfl⟩ := List.exists_cons_of_ne_nil h.ne_nil
  simp

/-- Only one tree with some tokens in order is grouped by the ranks of its operators. -/
theorem unique (h : Chained ts n) (hg : ∀ m ∈ n.preorder, m.Grouped) {n' : Node}
    (h' : Chained ts n') (hg' : ∀ m ∈ n'.preorder, m.Grouped) : n = n' := by
  induction h generalizing n' with
  | «variable» t ht =>
    generalize hts : [t] = ts at h'
    cases h' with
    | «variable» u => cases hts; rfl
    | integer u _ hu => cases hts; simp [ht] at hu
    | binary u _ _ _ hl => exact absurd hts (hl.ne_single t u _)
  | integer t v ht hv =>
    generalize hts : [t] = ts at h'
    cases h' with
    | «variable» u hu => cases hts; simp [ht] at hu
    | integer u w _ hw => cases hts; rw [Option.some.inj (hv.symm.trans hw)]
    | binary u _ _ _ hl => exact absurd hts (hl.ne_single t u _)
  | binary t o ho hne hl hr ihl ihr =>
    generalize hts : _ ++ t :: _ = ts at h'
    cases h' with
    | «variable» u | integer u => exact absurd hts.symm (hl.ne_single u t _)
    | binary t' o' ho' hne' hl' hr' =>
      obtain ⟨-, -, hgl, hgr⟩ := grouped_binary ho hg
      obtain ⟨-, -, hgl', hgr'⟩ := grouped_binary ho' hg'
      obtain ⟨rfl, rfl, rfl⟩ := root_eq ho ho' hl hr hl' hr' hg hg' hts
      obtain rfl : o = o' := Option.some.inj (ho.symm.trans ho')
      rw [ihl hgl hl' hgl', ihr hgr hr' hgr']

/-- A binary expression of two grouped trees is grouped if the ranks of the trees admit it. -/
theorem preorder_binary {s : Span} {t : Token} {o : Operator} {l r : Node}
    (ho : Operator.binary? t.kind = some o) (hne : t.kind ≠ .symbol .equals)
    (hleft : o.admitsLeft l.rank) (hright : o.admitsRight r.rank)
    (hgl : ∀ m ∈ l.preorder, m.Grouped) (hgr : ∀ m ∈ r.preorder, m.Grouped) :
    ∀ m ∈ (Node.mk s [t.leaf] (.binary (Text.ofString o.symbol) l r)).preorder, m.Grouped := by
  intro m hm
  rcases Node.mem_preorder.mp hm with rfl | ⟨leaf, -, rfl⟩ | ⟨e, he, hbelow⟩
  · obtain ⟨hl, hr⟩ := Operator.rank_le_of_admits hleft hright
    have hvalue := Operator.binary?_rank_le_value ho hne
    exact ⟨o, Operator.named?_of_binary? ho, hleft, hright,
      Node.kind_ne_assignment (hl.trans hvalue), Node.kind_ne_assignment (hr.trans hvalue)⟩
  · trivial
  · obtain rfl | rfl : e = l ∨ e = r := by
      simpa [Node.shape, Shape.elements, Shape.fields, Field.elements] using he
    · exact hgl m hbelow
    · exact hgr m hbelow

end Chained

/-! ## Parsing chains -/

/-- What may follow an operand that is taken alone. -/
def EndsOperand (k : TokenKind) : Prop :=
  k ≠ .symbol .leftBracket ∧ k ≠ .symbol .dot ∧ k ≠ .symbol .question

theorem endsOperand_of_binary? {k : TokenKind} {o : Operator} (h : Operator.binary? k = some o) :
    EndsOperand k := by
  refine ⟨?_, ?_, ?_⟩ <;> rintro rfl <;> cases h

variable {g : Grammar} {scope : Scope} {s s' : TokenStream} {n : Node}

/-- Where nothing goes on with an operand, it is answered as it is. -/
theorem postfixTail_gives (hends : EndsOperand s.current.kind) :
    Gives (postfixTail g n) scope s n s := by
  obtain ⟨hbracket, hdot, hquestion⟩ := hends
  refine repeatFrom_stops ?_
  simp [hbracket, hdot, hquestion]

/-- An operand that nothing goes on with is read alone. -/
theorem unary_gives (g : Grammar) (scope : Scope) (place : BarewordPlace) {t : Token}
    {more : List Token} (ht : t.IsOperand) (hs : s.rest = t :: more)
    (hends : EndsOperand s.tail.current.kind) :
    ∃ n, Gives (unary g place) scope s n s.tail ∧ Chained [t] n ∧ n.rank = 0 ∧
      ∀ m ∈ n.preorder, m.Grouped := by
  have hcurrent : s.current = t := by simp [TokenStream.current, hs]
  rcases ht with hk | ⟨hk, hsome⟩
  · refine ⟨t.variableNode, ?_, .variable t hk, Node.rank_ofName _ _ _,
      Constituent.grouped_preorder (.derived (.variable t hk))⟩
    simp [unary, hcurrent, hk, Operator.unary?, operand, primary, Token.literal?,
      postfixTail_gives hends]
  · obtain ⟨v, hv⟩ := Option.isSome_iff_exists.mp hsome
    refine ⟨_, ?_, .integer t v hk hv, rfl,
      Constituent.grouped_preorder (.derived (.integer t v hk hv))⟩
    simp [unary, hcurrent, hk, Operator.unary?, operand, primary, Token.literal?,
      Token.integerNode, hv, postfixTail_gives hends]

/-- What climbing through a chain has read so far: a grouped tree of some tokens of the chain, with
links after them that the stream goes on with. -/
structure Climbed (total more : List Token) (last : Token) (maxRank : Nat) (n : Node)
    (s : TokenStream) (pending : List Link) : Prop where
  split : ∃ ts, total = ts ++ linkTokens pending ∧ Chained ts n
  grouped : ∀ m ∈ n.preorder, m.Grouped
  rank : n.rank ≤ maxRank
  rest : s.rest = linkTokens pending ++ more
  last : s.last = last

section Climbing

variable {more : List Token} {last : Token} {command : Bool}

theorem endsOperand_current (hends : EndsOperand (more.headD last).kind) {pending : List Link}
    (hrest : s.rest = linkTokens pending ++ more) (hlast : s.last = last) :
    EndsOperand s.current.kind := by
  cases pending with
  | nil =>
    rw [TokenStream.current, hrest, hlast]
    exact hends
  | cons l pending =>
    obtain ⟨o, ho⟩ := Option.isSome_iff_exists.mp l.isLink.1
    have hcurrent : s.current = l.operator := by simp [TokenStream.current, hrest]
    rw [hcurrent]
    exact endsOperand_of_binary? ho

/-- The grammar climbs through chains with fewer links than a bound. -/
def Climbs (g : Grammar) (scope : Scope) (more : List Token) (last : Token) (command : Bool)
    (bound : Nat) : Prop :=
  ∀ (first : Token) (links : List Link) (s : TokenStream) (maxRank : Nat), first.IsOperand →
    links.length < bound → s.rest = first :: linkTokens links ++ more → s.last = last →
    ∃ n s', Gives (g.binary maxRank command) scope s n s' ∧ s'.Stops maxRank command ∧
      ∃ pending, Climbed (first :: linkTokens links) more last maxRank n s' pending ∧
        pending <:+ links

variable {bound maxRank : Nat} {total : List Token} {left : Node} {pending : List Link}

/-- A link joins what was read so far with what is read after its operator. -/
theorem Climbed.join {l : Link} {o : Operator} {m r : Node} {s₁ s₂ : TokenStream}
    {links pending : List Link} (hm : Climbed total more last maxRank m s₁ (l :: links))
    (ho : Operator.binary? l.operator.kind = some o) (hrank : o.rank ≤ maxRank)
    (hleft : o.admitsLeft m.rank)
    (hr : Climbed (l.operand :: linkTokens links) more last o.rightRank r s₂ pending) :
    Climbed total more last maxRank
      (.mk (m.span.join r.span) [l.operator.leaf] (.binary (Text.ofString o.symbol) m r)) s₂
      pending := by
  obtain ⟨ts, htotal, hts⟩ := hm.split
  obtain ⟨us, hus, hr'⟩ := hr.split
  have hright := Operator.admitsRight_of_le (Operator.binary?_pos ho) hr.rank
  constructor
  case split =>
    refine ⟨ts ++ l.operator :: us, ?_, .binary _ o ho l.isLink.2 hts hr'⟩
    rw [htotal, linkTokens_cons, hus]
    simp
  case grouped => exact Chained.preorder_binary ho l.isLink.2 hleft hright hm.grouped hr.grouped
  case rank => rwa [Node.rank_binary ho]
  case rest => exact hr.rest
  case last => exact hr.last

/-- Climbing through a chain reads links as long as the ranks allow. -/
theorem climb_gives (hnone : Operator.binary? (more.headD last).kind = none)
    (hg : Climbs g scope more last command bound)
    (h : Climbed total more last maxRank left s pending)
    (hbound : pending.length ≤ bound) (hnext : s.AdmitsLeft left.rank command) :
    ∃ n s', Gives (climb g maxRank command left) scope s n s' ∧ s'.Stops maxRank command ∧
      ∃ p, Climbed total more last maxRank n s' p ∧ p <:+ pending := by
  refine repeatFrom_gives
    (fun m s₁ => ∃ p, Climbed total more last maxRank m s₁ p ∧ p <:+ pending ∧
      s₁.AdmitsLeft m.rank command) _ ?_ ⟨pending, h, List.suffix_refl _, hnext⟩
  rintro m s₁ ⟨p, hm, hsuffix, hleft⟩
  cases p with
  | nil =>
    have hcurrent : Operator.binary? s₁.current.kind = none := by
      rw [TokenStream.current, hm.rest, hm.last]
      exact hnone
    refine .inl ⟨m, s₁, ?_, fun o ho => by simp [hcurrent] at ho, [], hm, hsuffix⟩
    simp only [gives_bind, gives_current]
    exact ⟨_, _, ⟨rfl, rfl⟩, by simp [hcurrent]⟩
  | cons l p =>
    obtain ⟨o, ho⟩ := Option.isSome_iff_exists.mp l.isLink.1
    have hcurrent : s₁.current = l.operator := by simp [TokenStream.current, hm.rest]
    by_cases hstop : maxRank < o.rank ∨ command ∧ (Operator.command? l.operator.kind).isSome
    · refine .inl ⟨m, s₁, ?_, ?_, l :: p, hm, hsuffix⟩
      · simp only [gives_bind, gives_current]
        exact ⟨_, _, ⟨rfl, rfl⟩, by simp [hcurrent, ho, hstop]⟩
      · intro o' ho' hc
        rw [hcurrent] at ho' hc
        obtain rfl : o = o' := Option.some.inj (ho.symm.trans ho')
        rcases hstop with hlt | ⟨hcommand, hsome⟩
        · exact hlt
        · simp [hc hcommand] at hsome
    · have hcommand : command → Operator.command? s₁.current.kind = none := by
        rw [hcurrent]
        simpa using fun hc => (not_or.mp hstop).2 ∘ And.intro hc
      have hleft := hleft o (hcurrent ▸ ho) hcommand
      have htail : s₁.tail.rest = l.operand :: linkTokens p ++ more := by
        simp [TokenStream.tail, hm.rest]
      have hlast : s₁.tail.last = last := by
        simp [TokenStream.tail, hm.rest, hm.last]
      have hlength : (l :: p).length ≤ bound := hsuffix.length_le.trans hbound
      obtain ⟨r, s₂, hr, hstops, q, hq, hqsuffix⟩ := hg l.operand p s₁.tail o.rightRank
        l.isOperand hlength htail hlast
      refine .inr ⟨_, s₂, ?_, ?_, q, hm.join ho (by omega) hleft hq,
        (hqsuffix.trans (List.suffix_cons l p)).trans hsuffix, ?_⟩
      · simp only [gives_bind, gives_current]
        refine ⟨_, _, ⟨rfl, rfl⟩, ?_⟩
        simpa [hcurrent, ho, hstop, l.isLink.2] using hr
      · rw [hq.rest, hm.rest, List.length_append, List.length_append, linkTokens_length,
          linkTokens_length, List.length_cons]
        have := hqsuffix.length_le
        omega
      · rw [Node.rank_binary ho]
        exact hstops.admitsLeft ho

/-- A binary expression climbs through a chain if the grammar climbs through shorter ones. -/
theorem binary_gives (hends : EndsOperand (more.headD last).kind)
    (hnone : Operator.binary? (more.headD last).kind = none)
    (hg : Climbs g scope more last command bound) {first : Token} {links : List Link}
    (hfirst : first.IsOperand) (hlinks : links.length ≤ bound)
    (hs : s.rest = first :: linkTokens links ++ more) (hlast : s.last = last) :
    ∃ n s', Gives (binary g maxRank command) scope s n s' ∧ s'.Stops maxRank command ∧
      ∃ pending, Climbed (first :: linkTokens links) more last maxRank n s' pending ∧
        pending <:+ links := by
  have htail : s.tail.rest = linkTokens links ++ more := by simp [TokenStream.tail, hs]
  have htlast : s.tail.last = last := by simp [TokenStream.tail, hs, hlast]
  obtain ⟨left, hleft, hchained, hrank, hgrouped⟩ :=
    unary_gives g scope .value hfirst hs (endsOperand_current hends htail htlast)
  have hclimbed : Climbed (first :: linkTokens links) more last maxRank left s.tail links :=
    ⟨⟨[first], rfl, hchained⟩, hgrouped, hrank ▸ Nat.zero_le _, htail, htlast⟩
  obtain ⟨n, s', hn, hrest⟩ :=
    climb_gives hnone hg hclimbed hlinks (hrank ▸ admitsLeft_zero _ _)
  refine ⟨n, s', ?_, hrest⟩
  simp only [binary, binaryIn, gives_bind]
  exact ⟨left, s.tail, hleft, hn⟩

/-- The grammar with a bound climbs through every chain with fewer links. -/
theorem grammar_climbs (hends : EndsOperand (more.headD last).kind)
    (hnone : Operator.binary? (more.headD last).kind = none) (bound : Nat) :
    Climbs (grammar bound) scope more last command bound := by
  induction bound with
  | zero => exact fun _ _ _ _ _ hlinks => absurd hlinks (Nat.not_lt_zero _)
  | succ bound ih =>
    intro first links s maxRank hfirst hlinks hs hlast
    exact binary_gives hends hnone ih hfirst (Nat.le_of_lt_succ hlinks) hs hlast

end Climbing

/-- A parser of binary expressions whose ranks reach all operators of a chain reads all of it. -/
theorem grammar_binary_gives (scope : Scope) (command : Bool) {more : List Token}
    {bound maxRank : Nat} {first : Token} {links : List Link}
    (hends : EndsOperand (more.headD s.last).kind)
    (hnone : Operator.binary? (more.headD s.last).kind = none) (hfirst : first.IsOperand)
    (hlinks : links.length < bound) (hs : s.rest = first :: linkTokens links ++ more)
    (hranks : ∀ l ∈ links, ∀ o, Operator.binary? l.operator.kind = some o → o.rank ≤ maxRank)
    (hcommand : command → ∀ l ∈ links, Operator.command? l.operator.kind = none) :
    ∃ n s', Gives ((grammar bound).binary maxRank command) scope s n s' ∧ s'.rest = more ∧
      Chained (first :: linkTokens links) n ∧ ∀ m ∈ n.preorder, m.Grouped := by
  obtain ⟨n, s', hn, hstops, pending, hclimbed, hsuffix⟩ :=
    grammar_climbs hends hnone bound first links s maxRank hfirst hlinks hs rfl
  obtain ⟨ts, htotal, hchained⟩ := hclimbed.split
  cases pending with
  | nil =>
    rw [linkTokens_nil, List.append_nil] at htotal
    exact ⟨n, s', hn, hclimbed.rest, htotal ▸ hchained, hclimbed.grouped⟩
  | cons l pending =>
    -- The parser would have gone on with the operator of the next link.
    obtain ⟨o, ho⟩ := Option.isSome_iff_exists.mp l.isLink.1
    have hcurrent : s'.current = l.operator := by simp [TokenStream.current, hclimbed.rest]
    have hmem : l ∈ links := hsuffix.subset List.mem_cons_self
    have := hranks l hmem o ho
    have := hstops o (hcurrent ▸ ho) fun hc => hcurrent ▸ hcommand hc l hmem
    omega

/-- Every operator of a chain binds at most as loosely as a value may. -/
theorem Link.rank_le {l : Link} {o : Operator} (ho : Operator.binary? l.operator.kind = some o) :
    o.rank ≤ Operator.valueRank := Operator.binary?_rank_le_value ho l.isLink.2

/-- A chain has a grouped tree. -/
theorem exists_chained {first : Token} (links : List Link) (hfirst : first.IsOperand) :
    ∃ n, Chained (first :: linkTokens links) n ∧ ∀ m ∈ n.preorder, m.Grouped := by
  let s : TokenStream := ⟨first :: linkTokens links ++ [], Token.endAt Position.start, none⟩
  have hends : EndsOperand (([] : List Token).headD s.last).kind :=
    ⟨TokenKind.noConfusion, TokenKind.noConfusion, TokenKind.noConfusion⟩
  have hrest : s.rest = first :: linkTokens links ++ [] := rfl
  obtain ⟨n, -, -, -, hchained, hgrouped⟩ := grammar_binary_gives ⟨true⟩ false hends rfl hfirst
    (Nat.lt_succ_self _) hrest (fun _ _ _ ho => Link.rank_le ho) Bool.noConfusion
  exact ⟨n, hchained, hgrouped⟩

end Parse

/-- The ranks of the operators decide how expressions group.  Everything in a parsed tree is
grouped by them; a chain has one tree that is, and a parser of binary expressions whose ranks
reach all operators of the chain answers it. -/
theorem Node.parse_groups_by_rank :
    (∀ source tree, Node.parse source = .ok tree → ∀ n ∈ tree.preorder, n.Grouped) ∧
    ∀ (first : Token) (links : List Link), first.IsOperand →
      ∃ n, Chained (first :: linkTokens links) n ∧ (∀ m ∈ n.preorder, m.Grouped) ∧
        (∀ n', Chained (first :: linkTokens links) n' → (∀ m ∈ n'.preorder, m.Grouped) →
          n' = n) ∧
        ∀ (scope : Scope) (s : TokenStream) (more : List Token) (bound maxRank : Nat)
          (command : Bool), s.rest = first :: linkTokens links ++ more →
          EndsOperand (more.headD s.last).kind →
          Operator.binary? (more.headD s.last).kind = none → links.length < bound →
          (∀ l ∈ links, ∀ o, Operator.binary? l.operator.kind = some o → o.rank ≤ maxRank) →
          (command → ∀ l ∈ links, Operator.command? l.operator.kind = none) →
          ∃ s', Gives ((grammar bound).binary maxRank command) scope s n s' ∧ s'.rest = more := by
  constructor
  · intro source tree h
    obtain ⟨tokens, comments, statements, hp⟩ := Node.parse_parsed h
    exact hp.grouped
  · intro first links hfirst
    obtain ⟨n, hchained, hgrouped⟩ := exists_chained links hfirst
    refine ⟨n, hchained, hgrouped, fun n' h' hg' => h'.unique hg' hchained hgrouped, ?_⟩
    intro scope s more bound maxRank command hs hends hnone hlinks hranks hcommand
    obtain ⟨n', s', hgives, hrest, h', hg'⟩ :=
      grammar_binary_gives scope command hends hnone hfirst hlinks hs hranks hcommand
    obtain rfl := h'.unique hg' hchained hgrouped
    exact ⟨s', hgives, hrest⟩

/-- An assignment of a sum of products, and the tree of a chain of three integers. -/
theorem Node.parse_groups_by_rank_sum :
    (∃ tree, Node.parse (Text.ofString "$a = 1 + 2 * 3\n") = .ok tree ∧ tree.preorder.length = 11 ∧
      ∀ n ∈ tree.preorder, n.Grouped) ∧
    ∃ n, (∀ m ∈ n.preorder, m.Grouped) ∧
      ∃ s', Gives ((grammar 3).binary Operator.expressionRank false) ⟨true⟩
      ⟨[.mk .integer [.char '1'] ⟨0, 1, 1, 1⟩ .plain,
        .mk (.symbol .plus) [.char '+'] ⟨2, 3, 1, 3⟩ .plain,
        .mk .integer [.char '2'] ⟨4, 5, 1, 5⟩ .plain,
        .mk (.symbol .times) [.char '*'] ⟨6, 7, 1, 7⟩ .plain,
        .mk .integer [.char '3'] ⟨8, 9, 1, 9⟩ .plain], Token.endAt ⟨9, 1, 10⟩, none⟩ n s' ∧
      s'.rest = [] := by
  have hrun : (Node.parse (Text.ofString "$a = 1 + 2 * 3\n")).toOption.map
      (fun tree => tree.preorder.length) = some 11 := by cbv
  obtain ⟨tree, hparse, hlength⟩ := exists_ok_of_map hrun
  have hone : (Token.mk .integer [.char '1'] ⟨0, 1, 1, 1⟩ .plain).IsOperand := .inr ⟨rfl, rfl⟩
  have hends : EndsOperand (Token.endAt ⟨9, 1, 10⟩).kind :=
    ⟨TokenKind.noConfusion, TokenKind.noConfusion, TokenKind.noConfusion⟩
  obtain ⟨n, -, hgrouped, -, hgives⟩ := Node.parse_groups_by_rank.2 _
    [⟨.mk (.symbol .plus) [.char '+'] ⟨2, 3, 1, 3⟩ .plain,
        .mk .integer [.char '2'] ⟨4, 5, 1, 5⟩ .plain,
        ⟨rfl, by decide⟩, .inr ⟨rfl, rfl⟩⟩,
      ⟨.mk (.symbol .times) [.char '*'] ⟨6, 7, 1, 7⟩ .plain,
        .mk .integer [.char '3'] ⟨8, 9, 1, 9⟩ .plain,
        ⟨rfl, by decide⟩, .inr ⟨rfl, rfl⟩⟩] hone
  exact ⟨⟨tree, hparse, hlength, Node.parse_groups_by_rank.1 _ tree hparse⟩, n, hgrouped,
    hgives ⟨true⟩ _ [] 3 Operator.expressionRank false rfl hends rfl (by decide)
      (fun l _ o ho => Operator.binary?_rank_le ho) Bool.noConfusion⟩

end ManifestTree
