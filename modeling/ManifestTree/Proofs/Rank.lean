import ManifestTree.Operator
import ManifestTree.Tree

/-!
# Ranks of expressions

A binary expression has the rank of its operator, an assignment the rank of the assignment
operator, and every other expression the rank zero.  `Operator.admitsLeft` and
`Operator.admitsRight` say which ranks the operands of an operator may have: its own rank only on
the side to which it groups.
-/

namespace ManifestTree

namespace Operator

/-- The operators that stand between operands, each once. -/
def binaryTable : List Operator :=
  (Keyword.all.map TokenKind.keyword ++ Symbol.all.map TokenKind.symbol).filterMap binary?

/-- The operator between operands that is written in a way. -/
def named? (symbol : Text) : Option Operator :=
  binaryTable.find? fun o => Text.ofString o.symbol = symbol

/-- What holds of the operators of the listed symbols and keywords holds of every operator between
operands, as there are no others. -/
theorem forall_binary? {P : TokenKind → Operator → Prop}
    (h : ∀ k ∈ Keyword.all.map TokenKind.keyword ++ Symbol.all.map TokenKind.symbol,
      ∀ o ∈ binary? k, P k o)
    {k : TokenKind} {o : Operator} (ho : binary? k = some o) : P k o := by
  refine h k ?_ o ho
  cases k with
  | keyword w =>
    have hw : w ∈ Keyword.all := by cases w <;> decide
    exact List.mem_append_left _ (List.mem_map_of_mem hw)
  | symbol x =>
    have hx : x ∈ Symbol.all := by cases x <;> decide
    exact List.mem_append_right _ (List.mem_map_of_mem hx)
  | _ => cases ho

/-- No two operators between operands are written alike. -/
theorem named?_of_binary? {k : TokenKind} {o : Operator} (h : binary? k = some o) :
    named? (Text.ofString o.symbol) = some o :=
  forall_binary? (P := fun _ o => named? (Text.ofString o.symbol) = some o) (by decide) h

/-- The operator may have an expression of a rank on its left. -/
def admitsLeft (o : Operator) (rank : Nat) : Prop :=
  match o.associativity with
  | .left => rank ≤ o.rank
  | .right => rank < o.rank

/-- The operator may have an expression of a rank on its right. -/
def admitsRight (o : Operator) (rank : Nat) : Prop :=
  match o.associativity with
  | .left => rank < o.rank
  | .right => rank ≤ o.rank

/-- Operators between operands bind looser than those before one, and only those of three ranks
group to the right. -/
theorem binary?_spec {k : TokenKind} {o : Operator} (h : binary? k = some o) :
    0 < o.rank ∧ o.rank ≤ expressionRank ∧
      o.associativity = if o.rank ∈ [5, 10, 13] then .right else .left :=
  forall_binary? (P := fun _ o => 0 < o.rank ∧ o.rank ≤ expressionRank ∧
    o.associativity = if o.rank ∈ [5, 10, 13] then .right else .left) (by decide) h

theorem binary?_pos {k : TokenKind} {o : Operator} (h : binary? k = some o) : 0 < o.rank :=
  (binary?_spec h).1

theorem binary?_rank_le {k : TokenKind} {o : Operator} (h : binary? k = some o) :
    o.rank ≤ expressionRank := (binary?_spec h).2.1

/-- Only the assignment binds looser than a value. -/
theorem binary?_rank_le_value {k : TokenKind} {o : Operator} (h : binary? k = some o)
    (hk : k ≠ .symbol .equals) : o.rank ≤ valueRank :=
  forall_binary? (P := fun k o => k ≠ .symbol .equals → o.rank ≤ valueRank) (by decide) h hk

/-- No operand binds looser than its operator. -/
theorem rank_le_of_admits {o : Operator} {l r : Nat} (hl : o.admitsLeft l)
    (hr : o.admitsRight r) : l ≤ o.rank ∧ r ≤ o.rank := by
  unfold admitsLeft at hl
  unfold admitsRight at hr
  split at hl <;> simp_all <;> omega

/-- Operators of one rank group alike. -/
theorem associativity_eq {k k' : TokenKind} {o o' : Operator} (h : binary? k = some o)
    (h' : binary? k' = some o') (hr : o.rank = o'.rank) : o.associativity = o'.associativity := by
  rw [(binary?_spec h).2.2, (binary?_spec h').2.2, hr]

/-- The command operators group to the left. -/
theorem command?_rightRank {k : TokenKind} {o : Operator} (h : command? k = some o) :
    o.rightRank + 1 = o.rank := by
  unfold command? at h
  split at h <;> cases h <;> rfl

instance (o : Operator) (rank : Nat) : Decidable (o.admitsLeft rank) := by
  unfold admitsLeft
  split <;> infer_instance

instance (o : Operator) (rank : Nat) : Decidable (o.admitsRight rank) := by
  unfold admitsRight
  split <;> infer_instance

/-- What binds at most as loosely as the right rank may stand on the right. -/
theorem admitsRight_of_le {o : Operator} {rank : Nat} (ho : 0 < o.rank)
    (h : rank ≤ o.rightRank) : o.admitsRight rank := by
  unfold admitsRight
  unfold rightRank at h
  cases ha : o.associativity with
  | left =>
    rw [ha] at h
    show rank < o.rank
    change rank ≤ o.rank - 1 at h
    omega
  | right =>
    rw [ha] at h
    exact h

/-- An operand alone may stand on the left. -/
theorem admitsLeft_zero {o : Operator} (ho : 0 < o.rank) : o.admitsLeft 0 := by
  unfold admitsLeft
  split <;> omega

/-- An operator that binds too loosely for the right of another takes that one on its left. -/
theorem admitsLeft_of_rightRank_lt {k k' : TokenKind} {o o' : Operator} (h : binary? k = some o)
    (h' : binary? k' = some o') (hr : o.rightRank < o'.rank) : o'.admitsLeft o.rank := by
  have hrank := binary?_pos h
  have hassoc := associativity_eq h h'
  unfold admitsLeft
  unfold rightRank at hr
  cases ho : o.associativity <;> cases ho' : o'.associativity <;> simp_all <;> omega

end Operator

namespace Node

/-- How loosely an expression binds. -/
def rank (n : Node) : Nat :=
  match n.shape with
  | .binary operator _ _ => ((Operator.named? operator).map Operator.rank).getD 0
  | .assignment _ _ => Operator.expressionRank
  | _ => 0

/-- How loosely a statement expression binds among the command operators. -/
def commandRank (n : Node) : Nat :=
  match n.shape with
  | .commandBinary .and _ _ => 14
  | .commandBinary .or _ _ => 15
  | _ => 0

theorem rank_binary {k : TokenKind} {o : Operator} (h : Operator.binary? k = some o) (s : Span)
    (ls : List Leaf) (l r : Node) :
    (Node.mk s ls (.binary (Text.ofString o.symbol) l r)).rank = o.rank := by
  simp [rank, shape, Operator.named?_of_binary? h]

theorem rank_assignment (s : Span) (ls : List Leaf) (l r : Node) :
    (Node.mk s ls (.assignment l r)).rank = Operator.expressionRank := rfl

end Node

end ManifestTree
