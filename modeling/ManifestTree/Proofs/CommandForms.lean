import ManifestTree.Proofs.Grouping
import ManifestTree.Proofs.NodePlaces

/-!
# Command forms of `and` and `or`

A statement expression and a condition join whole expressions by `and` and `or`.  Outside brackets
these two never stand in a binary expression there, only in the command form, which groups to the
left with `and` binding tighter.  `Node.commands` lists the expressions in such places, and
`Node.Exposes` reaches what stands in one of them outside brackets.
-/

namespace ManifestTree

open Parse

/-! ## Outside brackets -/

/-- The elements of a shape that do not stand between brackets of its own. -/
def Shape.unbracketed {α : Type} : Shape α → List α
  | .array _ | .hash _ | .parenthesized _ | .lambda _ _ | .interpolation _ => []
  | .indexAccess target _ => [target]
  | .reference name _ => [name]
  | .functionCall name _ block => name :: block.toList
  | .methodCall receiver name _ block => receiver :: name :: block.toList
  | .selector subject _ => [subject]
  | .collector _ name _ _ => [name]
  | s => s.elements

namespace Node

/-- The second node is reached from the first without passing through brackets. -/
inductive Exposes : Node → Node → Prop
  | self (n : Node) : Exposes n n
  | step {n e m : Node} : e ∈ n.shape.unbracketed → Exposes e m → Exposes n m

/-- A binary expression with `and` or `or`. -/
def isLogical (n : Node) : Bool :=
  match n.shape with
  | .binary operator _ _ => operator = Text.ofString "and" || operator = Text.ofString "or"
  | _ => false

/-- No binary expression with `and` or `or` stands outside brackets. -/
def Clear (n : Node) : Prop := ∀ m, n.Exposes m → ¬ m.isLogical

theorem clear_of_unbracketed {n : Node} (hn : ¬ n.isLogical)
    (h : ∀ e ∈ n.shape.unbracketed, e.Clear) : n.Clear := by
  intro m hm
  cases hm with
  | self => exact hn
  | step he hm => exact h _ he m hm

theorem clear_of_bracketed {n : Node} (hn : ¬ n.isLogical) (h : n.shape.unbracketed = []) :
    n.Clear := by
  refine clear_of_unbracketed hn ?_
  rw [h]
  exact List.forall_mem_nil _

theorem clear_ofName (s : Span) (form : NameForm) (cs : Text) :
    (Node.plain s (.ofName form cs)).Clear := by
  obtain ⟨segments, absolute, h⟩ := @Shape.ofName_eq Node form cs
  rw [h]
  exact clear_of_bracketed Bool.false_ne_true rfl

theorem clear_fragment (f : Fragment) (inner : Node) : (f.nodeOf inner).Clear := by
  obtain ⟨text, span, piece⟩ := f
  cases piece with
  | «variable» => exact clear_ofName _ _ _
  | _ => exact clear_of_bracketed Bool.false_ne_true rfl

end Node

/-- Only the keywords `and` and `or` are written like them. -/
theorem Operator.symbol_ne {k : TokenKind} {o : Operator} (h : binary? k = some o)
    (hk : command? k = none) :
    Text.ofString o.symbol ≠ Text.ofString "and" ∧ Text.ofString o.symbol ≠ Text.ofString "or" :=
  forall_binary? (P := fun k o => command? k = none →
    Text.ofString o.symbol ≠ Text.ofString "and" ∧ Text.ofString o.symbol ≠ Text.ofString "or")
    (by decide) h hk

namespace Parse

/-- The categories of statement expressions and of what stands outside brackets in them. -/
def Category.isCommand : Category → Bool
  | .string | .operand | .unary | .expression true | .statementExpression | .lambda => true
  | _ => false

/-- No `and` or `or` joins operands outside the brackets of a statement expression. -/
theorem Derives.clear {c : Category} {ts : List Token} {n : Node} (h : Derives c ts n)
    (hc : c.isCommand) : n.Clear := by
  have fragments (fs : List Fragment) (inner : Fragment → Node) :
      ∀ e ∈ fs.map fun f => f.nodeOf (inner f), e.Clear :=
    List.forall_mem_map.mpr fun f _ => Node.clear_fragment f (inner f)
  have blocks (o : Option Segment) (ih : ∀ b ∈ o, Category.lambda.isCommand → b.2.Clear) :
      ∀ e ∈ (o.map Prod.snd).toList, e.Clear := by
    simpa using fun _ n hn => ih _ hn rfl
  induction h with
  | quoted _ ih | bareOperand _ ih | plainCommand _ ih => exact ih rfl
  | single command _ ih => exact ih rfl
  | «variable» | name | referenceName | bareVariable => exact Node.clear_ofName _ _ _
  | string t inner =>
    refine Node.clear_of_unbracketed Bool.false_ne_true ?_
    show ∀ e ∈ (Shape.string _ _).elements, _
    rw [Shape.elements_string]
    exact fragments t.fragments inner
  | heredoc t tag b inner =>
    refine Node.clear_of_unbracketed Bool.false_ne_true
      (List.forall_mem_cons.mpr ⟨?_, List.forall_mem_singleton.mpr ?_⟩)
    · exact Node.clear_of_bracketed Bool.false_ne_true rfl
    · refine Node.clear_of_unbracketed Bool.false_ne_true ?_
      show ∀ e ∈ (Shape.heredocBody _ _).elements, _
      rw [Shape.elements_heredocBody]
      exact fragments b.fragments inner
  | prefixed _ _ _ _ ih | indexAccess _ _ _ _ _ _ ih | selector _ _ _ _ _ _ _ _ ih =>
    exact Node.clear_of_unbracketed Bool.false_ne_true (List.forall_mem_singleton.mpr (ih rfl))
  | reference | collector =>
    exact Node.clear_of_unbracketed Bool.false_ne_true
      (List.forall_mem_singleton.mpr (Node.clear_ofName _ _ _))
  | functionCall t arguments block _ _ _ _ _ _ ihb =>
    exact Node.clear_of_unbracketed Bool.false_ne_true
      (List.forall_mem_cons.mpr ⟨Node.clear_ofName _ _ _, blocks block ihb⟩)
  | methodCall dot t arguments block _ _ _ _ _ _ _ ih _ ihb =>
    refine Node.clear_of_unbracketed Bool.false_ne_true (List.forall_mem_cons.mpr ⟨ih rfl, ?_⟩)
    exact List.forall_mem_cons.mpr ⟨Node.clear_ofName _ _ _, blocks block ihb⟩
  | binary command t o ho _ hcommand _ _ _ _ ihl ihr =>
    have hset : command = true := by
      cases command with
      | false => cases hc
      | true => rfl
    obtain ⟨hand, hor⟩ := Operator.symbol_ne ho (hcommand hset)
    refine Node.clear_of_unbracketed ?_
      (List.forall_mem_cons.mpr ⟨ihl hc, List.forall_mem_singleton.mpr (ihr hc)⟩)
    simp [Node.isLogical, Node.shape, hand, hor]
  | assignment command _ _ _ _ _ ihl ihr | commandBinary _ _ _ _ _ _ _ ihl ihr =>
    exact Node.clear_of_unbracketed Bool.false_ne_true
      (List.forall_mem_cons.mpr ⟨ihl hc, List.forall_mem_singleton.mpr (ihr hc)⟩)
  | integer | float | regex | boolean | undef | default | word | array | hash | parenthesized
  | lambda => exact Node.clear_of_bracketed Bool.false_ne_true rfl
  | _ => cases hc

end Parse

/-! ## Statements and conditions -/

namespace Node

/-- The expressions among the statements of a manifest or body, and the condition of a
conditional. -/
def commands (n : Node) : List Node :=
  match n.shape with
  | .manifest statements _ | .body statements =>
    statements.filter fun s => Place.statementExpression.kinds.contains s.kind
  | .if condition _ _ _ | .elsif condition _ | .unless condition _ _ => [condition]
  | _ => []

theorem commands_ofName (s : Span) (form : NameForm) (cs : Text) :
    (Node.plain s (.ofName form cs)).commands = [] := by
  obtain ⟨segments, absolute, h⟩ := @Shape.ofName_eq Node form cs
  rw [h]
  rfl

end Node

namespace Parse

theorem Derives.statementExpression {ts : List Token} {n : Node} (h : Derives .statement ts n)
    (hn : Place.statementExpression.kinds.contains n.kind) : Derives .statementExpression ts n := by
  cases h with
  | expressionStatement h => exact h
  | composition _ verb => cases verb <;> cases hn
  | _ => cases hn

theorem Derives.statementExpressions {items : List Segment}
    (h : ∀ i ∈ items, Derives .statement i.1 i.2) :
    ∀ e ∈ (items.map Prod.snd).filter
      fun s => Place.statementExpression.kinds.contains s.kind,
      ∃ ts, Derives .statementExpression ts e := by
  intro e he
  obtain ⟨hmem, hkind⟩ := List.mem_filter.mp he
  obtain ⟨i, hi, rfl⟩ := List.mem_map.mp hmem
  exact ⟨i.1, (h i hi).statementExpression hkind⟩

/-- Some tokens make each expression in a statement or condition. -/
theorem Derives.commands {c : Category} {ts : List Token} {n : Node} (h : Derives c ts n) :
    ∀ e ∈ n.commands, ∃ us, Derives .statementExpression us e := by
  induction h with
  | quoted _ ih | bareOperand _ ih | single _ _ ih | plainCommand _ ih | nestedType _ ih
  | literalArgument _ _ _ ih | stringAttribute _ ih | valueKey _ _ ih | stringTarget _ ih
  | referenceTarget _ _ ih | stringMatch _ ih | expressionStatement _ ih => exact ih
  | «variable» | variableTarget | name | referenceName | namedTarget | bareVariable =>
    intro e he
    exact absurd (Node.commands_ofName _ _ _ ▸ he) List.not_mem_nil
  | body g _ _ hd => exact Derives.statementExpressions hd
  | elsif _ _ hd | ifStatement _ _ _ _ hd | unlessStatement _ _ _ hd =>
    exact List.forall_mem_singleton.mpr ⟨_, hd⟩
  | _ => exact List.forall_mem_nil _

theorem Constituent.commands {n : Node} (h : Constituent n) :
    ∀ e ∈ n.commands, ∃ us, Derives .statementExpression us e := by
  cases h with
  | derived h => exact h.commands
  | name =>
    intro e he
    exact absurd (Node.commands_ofName _ _ _ ▸ he) List.not_mem_nil
  | fragment f =>
    obtain ⟨text, span, piece⟩ := f
    cases piece with
    | «variable» =>
      intro e he
      exact absurd (Node.commands_ofName _ _ _ ▸ he) List.not_mem_nil
    | _ => exact List.forall_mem_nil _
  | manifest s statements comments hd => exact Derives.statementExpressions hd
  | _ => exact List.forall_mem_nil _

end Parse

/-! ## Grouping -/

namespace Node

/-- The operator of a command form. -/
def command? (n : Node) : Option CommandOperator :=
  match n.shape with
  | .commandBinary operator _ _ => some operator
  | _ => none

/-- A command form groups to the left, and `and` binds tighter than `or`. -/
def CommandGrouped (n : Node) : Prop :=
  match n.shape with
  | .commandBinary .and left right => left.command? ≠ some .or ∧ right.command? = none
  | .commandBinary .or _ right => right.command? ≠ some .or
  | _ => True

theorem commandRank_eq (n : Node) : n.commandRank =
    match n.command? with
    | some .and => 14
    | some .or => 15
    | none => 0 := by
  obtain ⟨s, ls, shape⟩ := n
  cases shape with
  | commandBinary o => cases o <;> rfl
  | _ => rfl

theorem commandRank_and {n : Node} :
    (n.commandRank ≤ 14 ↔ n.command? ≠ some .or) ∧ (n.commandRank < 14 ↔ n.command? = none) := by
  rw [commandRank_eq]
  cases n.command? with
  | none => simp
  | some o => cases o <;> simp

theorem commandRank_or {n : Node} :
    n.commandRank ≤ 15 ∧ (n.commandRank < 15 ↔ n.command? ≠ some .or) := by
  rw [commandRank_eq]
  cases n.command? with
  | none => simp
  | some o => cases o <;> simp

/-- A command form is grouped if the ranks of its operands admit the operator. -/
theorem commandGrouped_iff {k : TokenKind} {o : Operator} (h : Operator.command? k = some o)
    {s : Span} {ls : List Leaf} {l r : Node} :
    (Node.mk s ls (.commandBinary (commandOperator o) l r)).CommandGrouped ↔
      l.commandRank ≤ o.rank ∧ r.commandRank < o.rank := by
  unfold Operator.command? at h
  split at h
  · cases h
    exact and_congr commandRank_and.1.symm commandRank_and.2.symm
  · cases h
    show r.command? ≠ some .or ↔ l.commandRank ≤ 15 ∧ r.commandRank < 15
    rw [commandRank_or.2]
    exact (and_iff_right commandRank_or.1).symm
  · cases h

theorem commandGrouped_ofName (s : Span) (form : NameForm) (cs : Text) :
    (Node.plain s (.ofName form cs)).CommandGrouped := by
  obtain ⟨segments, absolute, h⟩ := @Shape.ofName_eq Node form cs
  rw [h]
  trivial

end Node

namespace Parse

/-- The rules of the grammar group command forms. -/
theorem Derives.commandGrouped {c : Category} {ts : List Token} {n : Node}
    (h : Derives c ts n) : n.CommandGrouped := by
  induction h with
  | quoted _ ih | bareOperand _ ih | single _ _ ih | plainCommand _ ih | nestedType _ ih
  | literalArgument _ _ _ ih | stringAttribute _ ih | valueKey _ _ ih | stringTarget _ ih
  | referenceTarget _ _ ih | stringMatch _ ih | expressionStatement _ ih => exact ih
  | «variable» | variableTarget | name | referenceName | namedTarget | bareVariable =>
    exact Node.commandGrouped_ofName _ _ _
  | commandBinary t o ho _ _ hleft hright =>
    exact (Node.commandGrouped_iff ho).mpr ⟨hleft, hright⟩
  | _ => trivial

theorem Constituent.commandGrouped {n : Node} (h : Constituent n) : n.CommandGrouped := by
  cases h with
  | derived h => exact h.commandGrouped
  | name => exact Node.commandGrouped_ofName _ _ _
  | fragment f =>
    obtain ⟨text, span, piece⟩ := f
    cases piece with
    | «variable» => exact Node.commandGrouped_ofName _ _ _
    | _ => trivial
  | _ => trivial

end Parse

/-! ## Order -/

namespace Node

/-- The operands and operators of an expression from left to right. -/
def inOrder : Node → List Node
  | .mk _ ls (.commandBinary _ l r) => l.inOrder ++ ls.map Leaf.toNode ++ r.inOrder
  | .mk _ ls (.binary _ l r) => l.inOrder ++ ls.map Leaf.toNode ++ r.inOrder
  | .mk _ ls (.assignment l r) => l.inOrder ++ ls.map Leaf.toNode ++ r.inOrder
  | .mk _ ls (.unary _ e) => ls.map Leaf.toNode ++ e.inOrder
  | n => [n]

/-- An operator has one sign, and reaches from its first to its last operand. -/
def Straddles (n : Node) : Prop :=
  match n.shape with
  | .commandBinary _ l r | .binary _ l r | .assignment l r =>
    l.kind.isInline ∧ r.kind.isInline ∧ ∃ sign, n.tokens = [sign] ∧ n.span = l.span.join r.span
  | .unary _ e => e.kind.isInline ∧ ∃ sign, n.tokens = [sign] ∧ n.span = sign.span.join e.span
  | _ => True

theorem straddles_ofName (s : Span) (form : NameForm) (cs : Text) :
    (Node.plain s (.ofName form cs)).Straddles := by
  obtain ⟨segments, absolute, h⟩ := @Shape.ofName_eq Node form cs
  rw [h]
  trivial

end Node

namespace Parse

def Category.isExpression : Category → Bool
  | .unary | .expression _ | .statementExpression => true
  | _ => false

theorem Derives.isInline {c : Category} {ts : List Token} {n : Node} (h : Derives c ts n)
    (hc : c.isExpression) : n.kind.isInline := by
  have hall : ∀ k ∈ c.kinds, k.isInline := by
    cases c with
    | «expression» =>
      show ∀ k ∈ Place.expression.kinds, k.isInline
      decide
    | «unary» | statementExpression => decide
    | _ => cases hc
  exact hall _ h.kind_mem

theorem Derives.straddles {c : Category} {ts : List Token} {n : Node}
    (h : Derives c ts n) : n.Straddles := by
  induction h with
  | quoted _ ih | bareOperand _ ih | single _ _ ih | plainCommand _ ih | nestedType _ ih
  | literalArgument _ _ _ ih | stringAttribute _ ih | valueKey _ _ ih | stringTarget _ ih
  | referenceTarget _ _ ih | stringMatch _ ih | expressionStatement _ ih => exact ih
  | «variable» | variableTarget | name | referenceName | namedTarget | bareVariable =>
    exact Node.straddles_ofName _ _ _
  | prefixed t o _ h => exact ⟨h.isInline rfl, t.leaf, rfl, rfl⟩
  | binary _ t _ _ _ _ hl hr | assignment _ t _ _ hl hr | commandBinary t _ _ hl hr =>
    exact ⟨hl.isInline rfl, hr.isInline rfl, t.leaf, rfl, rfl⟩
  | _ => trivial

theorem Constituent.straddles {n : Node} (h : Constituent n) : n.Straddles := by
  cases h with
  | derived h => exact h.straddles
  | name => exact Node.straddles_ofName _ _ _
  | fragment f =>
    obtain ⟨text, span, piece⟩ := f
    cases piece with
    | «variable» => exact Node.straddles_ofName _ _ _
    | _ => trivial
  | _ => trivial

end Parse

namespace Span.Row

variable {source : Text} {ss : List Span} {l s r : Span}

/-- Spans of a row are apart from each other, in whatever order they are listed. -/
theorem apart {ts : List Span} (h : Span.Row source ss) (hperm : ss.Perm ts) :
    ts.Pairwise fun a b => a.stop ≤ b.start ∨ b.stop ≤ a.start := by
  have hboth : ss.Pairwise fun a b => a.stop ≤ b.start ∨ b.stop ≤ a.start := h.ordered.imp .inl
  exact hboth.perm hperm Or.symm

/-- Of three spans in a row, the one that is neither first nor last stands between the others. -/
theorem between (h : Span.Row source ss) (hperm : ss.Perm [s, l, r])
    (hhull : hull ss = some (l.join r)) : Span.Row source [l, s, r] := by
  have hmem (x : Span) (hx : x ∈ [l, s, r]) : x ∈ ss := hperm.mem_iff.mpr (by grind)
  have hwithin := (h.of_hull hhull).2.2
  have hapart := h.apart hperm
  have hl := h.nonempty l (hmem l (by simp))
  have hs := h.nonempty s (hmem s (by simp))
  have hr := h.nonempty r (hmem r (by simp))
  have hsl := hwithin s (hmem s (by simp))
  have hll := hwithin l (hmem l (by simp))
  simp only [Span.join] at hsl hll
  refine ⟨fun x hx => h.correct x (hmem x hx), fun x hx => h.nonempty x (hmem x hx), ?_⟩
  simp at hapart ⊢
  omega

/-- Of two spans in a row, the one that starts first is first. -/
theorem before (h : Span.Row source ss) (hperm : ss.Perm [s, r])
    (hhull : hull ss = some (s.join r)) : Span.Row source [s, r] := by
  have hmem (x : Span) (hx : x ∈ [s, r]) : x ∈ ss := hperm.mem_iff.mpr hx
  have hwithin := (h.of_hull hhull).2.2
  have hapart := h.apart hperm
  have hs := h.nonempty s (hmem s (by simp))
  have hr := h.nonempty r (hmem r (by simp))
  have hrr := hwithin r (hmem r (by simp))
  simp only [Span.join] at hrr
  refine ⟨fun x hx => h.correct x (hmem x hx), fun x hx => h.nonempty x (hmem x hx), ?_⟩
  simp at hapart ⊢
  omega

end Span.Row

namespace Node

variable {source : Text}

/-- The children of an operator are in a row. -/
theorem Placed.parts_row {n : Node} {ns : List Node} (h : n.Placed source)
    (hn : n.kind.isInline) (hnodes : n.tokens.map Leaf.toNode ++ n.shape.elements = ns)
    (htokens : n.tokens ≠ []) (hns : ∀ m ∈ ns, m.kind.isInline) :
    ∃ ss, Span.Row source ss ∧ Span.hull ss = some n.span ∧ ss.Perm (ns.map span) := by
  rcases h.edges hn with hleaf | ⟨hrow, hhull, -⟩
  · exact absurd (isLeaf_iff.mp hleaf).2.1 htokens
  · have hperm : n.children.Perm ns := by
      rw [← hnodes]
      exact sortByStart_perm _ _
    have hinline : n.inlineChildren = n.children :=
      List.filter_eq_self.mpr fun m hm =>
        decide_eq_true (Kind.isInline_iff.mp (hns m (hperm.mem_iff.mp hm))).2.1
    rw [hinline] at hrow hhull
    exact ⟨_, hrow, hhull, hperm.map span⟩

/-- The operands and operators of the expression are in a row that reaches over all of it. -/
def InRow (source : Text) (n : Node) : Prop :=
  Span.Row source (n.inOrder.map span) ∧ Span.hull (n.inOrder.map span) = some n.span

theorem inRow_sign {ss : List Span} {l : Leaf} (h : Span.Row source ss) (hl : l.span ∈ ss) :
    l.toNode.InRow source :=
  ⟨.singleton (h.correct _ hl) (h.nonempty _ hl), rfl⟩

/-- Parts in a row that are taken apart again. -/
theorem inRow_parts {n : Node} (parts : List Node) (hrow : Span.Row source (parts.map span))
    (hhull : Span.hull (parts.map span) = some n.span) (hparts : ∀ m ∈ parts, m.InRow source)
    (hn : n.inOrder = parts.flatMap inOrder) : n.InRow source := by
  unfold InRow
  rw [hn, List.map_flatMap]
  exact ⟨hrow.refine_runs hparts, (Span.hull_flatMap fun m hm => (hparts m hm).2).trans hhull⟩

/-- An operator between two operands. -/
theorem inRow_between {n l r : Node} {sign : Leaf} (hplaced : n.Placed source)
    (hn : n.kind.isInline) (htokens : n.tokens = [sign]) (helements : n.shape.elements = [l, r])
    (hspan : n.span = l.span.join r.span) (hl : l.kind.isInline) (hr : r.kind.isInline)
    (hin : n.inOrder = l.inOrder ++ [sign].map Leaf.toNode ++ r.inOrder)
    (ihl : l.InRow source) (ihr : r.InRow source) : n.InRow source := by
  have hnodes : n.tokens.map Leaf.toNode ++ n.shape.elements = [sign.toNode, l, r] := by
    rw [htokens, helements]
    rfl
  have hns : ∀ m ∈ [sign.toNode, l, r], m.kind.isInline := by simpa using ⟨rfl, hl, hr⟩
  obtain ⟨ss, hrow, hhull, hperm⟩ := hplaced.parts_row hn hnodes (by simp [htokens]) hns
  have hparts : Span.Row source ([l, sign.toNode, r].map span) :=
    hrow.between hperm (hhull.trans (by rw [hspan]))
  have hsign : sign.toNode.InRow source := inRow_sign hparts (by simp [Leaf.toNode])
  refine inRow_parts [l, sign.toNode, r] hparts (by rw [hspan]; rfl) (by simp [ihl, hsign, ihr]) ?_
  rw [hin]
  simp [Leaf.toNode, inOrder, plain]

/-- An operator before its operand. -/
theorem inRow_before {n e : Node} {sign : Leaf} (hplaced : n.Placed source)
    (hn : n.kind.isInline) (htokens : n.tokens = [sign]) (helements : n.shape.elements = [e])
    (hspan : n.span = sign.span.join e.span) (he : e.kind.isInline)
    (hin : n.inOrder = [sign].map Leaf.toNode ++ e.inOrder) (ih : e.InRow source) :
    n.InRow source := by
  have hnodes : n.tokens.map Leaf.toNode ++ n.shape.elements = [sign.toNode, e] := by
    rw [htokens, helements]
    rfl
  have hns : ∀ m ∈ [sign.toNode, e], m.kind.isInline := by simpa using ⟨rfl, he⟩
  obtain ⟨ss, hrow, hhull, hperm⟩ := hplaced.parts_row hn hnodes (by simp [htokens]) hns
  have hparts : Span.Row source ([sign.toNode, e].map span) :=
    hrow.before hperm (hhull.trans (by rw [hspan]; rfl))
  have hsign : sign.toNode.InRow source := inRow_sign hparts (by simp [Leaf.toNode])
  refine inRow_parts [sign.toNode, e] hparts (by rw [hspan]; rfl) (by simp [ih, hsign]) ?_
  rw [hin]
  simp [Leaf.toNode, inOrder, plain]

/-- The operands and operators of a well placed expression are in a row. -/
theorem inRow {n : Node} (hplaced : n.WellPlaced source) (hn : n.kind.isInline)
    (hs : ∀ m ∈ n.preorder, m.Straddles) : n.InRow source := by
  have below {m : Node} (e : Node) (he : e ∈ m.shape.elements) (hm : m.WellPlaced source)
      (hs : ∀ x ∈ m.preorder, x.Straddles) :
      e.WellPlaced source ∧ ∀ x ∈ e.preorder, x.Straddles :=
    ⟨fun x hx => hm x (mem_preorder_element he hx), fun x hx => hs x (mem_preorder_element he hx)⟩
  fun_induction inOrder n with
  | case1 s ls o l r ihl ihr | case2 s ls o l r ihl ihr | case3 s ls l r ihl ihr =>
    obtain ⟨hl, hr, sign, rfl, rfl⟩ := hs _ (mem_preorder_self _)
    obtain ⟨hpl, hsl⟩ := below l List.mem_cons_self hplaced hs
    obtain ⟨hpr, hsr⟩ := below r (List.mem_cons_of_mem _ List.mem_cons_self) hplaced hs
    exact inRow_between hplaced.placed hn rfl rfl rfl hl hr rfl (ihl hpl hl hsl) (ihr hpr hr hsr)
  | case4 s ls o e ih =>
    obtain ⟨he, sign, rfl, rfl⟩ := hs _ (mem_preorder_self _)
    obtain ⟨hpe, hse⟩ := below e List.mem_cons_self hplaced hs
    exact inRow_before hplaced.placed hn rfl rfl rfl he rfl (ih hpe he hse)
  | case5 n =>
    have h := hplaced.placed
    have hin : n.inOrder = [n] := by rw [inOrder] <;> assumption
    unfold InRow
    rw [hin]
    exact ⟨.singleton h.correct (h.nonempty (Kind.isInline_iff.mp hn).1), rfl⟩

end Node

/-- What stands between the operators of a parsed tree and they themselves are in the order of the
source. -/
theorem Node.Parsed.inOrder {source : Text} {tokens comments : List Token}
    {statements : List Segment} {tree : Node}
    (h : Node.Parsed source tokens comments statements tree) {n : Node} (hn : n ∈ tree.preorder) :
    n.inOrder.Pairwise fun a b => a.span.stop ≤ b.span.start := by
  have hs : ∀ m ∈ n.preorder, m.Straddles := by
    intro m hm
    rcases h.constituent.preorder m (preorder_trans hn hm) with hc | ⟨l, rfl⟩
    · exact hc.straddles
    · trivial
  by_cases hinline : n.kind.isInline
  · have hrow := inRow (fun m hm => h.wellPlaced m (preorder_trans hn hm)) hinline hs
    exact List.pairwise_map.mp hrow.1.ordered
  · have hin : n.inOrder = [n] := by
      obtain ⟨s, ls, shape⟩ := n
      cases shape <;> first | rfl | exact absurd rfl hinline
    rw [hin]
    exact List.pairwise_singleton _ _

end ManifestTree
