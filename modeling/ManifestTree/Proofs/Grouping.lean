import ManifestTree.Proofs.Constituents

/-!
# Grouping by rank

`Node.Grouped` is what the table of operators demands of a node and its operands.  It holds of
everything in a parsed tree.
-/

namespace ManifestTree

open Parse

namespace Node

/-- The operands of an operator have the ranks that it admits, and an assignment stands only where
a whole expression may. -/
def Grouped (n : Node) : Prop :=
  match n.shape with
  | .binary operator left right =>
    ∃ o, Operator.named? operator = some o ∧ o.admitsLeft left.rank ∧ o.admitsRight right.rank ∧
      left.kind ≠ .assignment ∧ right.kind ≠ .assignment
  | .assignment target _ => target.kind = .variableName ∨ target.kind = .array
  | .unary _ operand => operand.rank = 0 ∧ operand.kind ≠ .assignment
  | .indexAccess target _ => target.rank = 0 ∧ target.kind ≠ .unary
  | .methodCall receiver _ _ _ => receiver.rank = 0 ∧ receiver.kind ≠ .unary
  | .selector subject _ => subject.rank = 0 ∧ subject.kind ≠ .unary
  | .array elements => ∀ e ∈ elements, e.kind ≠ .assignment
  | .hashEntry key value => key.kind ≠ .assignment ∧ value.kind ≠ .assignment
  | .selectorItem key value => key.kind ≠ .assignment ∧ value.kind ≠ .assignment
  | .attribute name _ value => name.kind ≠ .assignment ∧ value.kind ≠ .assignment
  | .parameter _ _ _ value => ∀ v ∈ value, v.kind ≠ .assignment
  | .caseItem options _ => ∀ o ∈ options, o.kind ≠ .assignment
  | .resourceBody title _ => title.kind ≠ .assignment
  | _ => True

/-- What binds no looser than a value is no assignment. -/
theorem kind_ne_assignment {n : Node} (h : n.rank ≤ Operator.valueRank) :
    n.kind ≠ .assignment := by
  obtain ⟨s, ls, shape⟩ := n
  intro hk
  cases shape with
  | assignment target value =>
    rw [rank_assignment] at h
    exact absurd h (by decide)
  | _ => cases hk

theorem grouped_ofName (s : Span) (form : NameForm) (cs : Text) :
    (Node.plain s (.ofName form cs)).Grouped := by
  obtain ⟨segments, absolute, h⟩ := @Shape.ofName_eq Node form cs
  rw [h]
  trivial

end Node

namespace Parse

theorem Derives.operand_rank {ts : List Token} {n : Node} (h : Derives .operand ts n) :
    n.rank = 0 ∧ n.kind ≠ .unary := ⟨(Derives.bareOperand h).rank_eq_zero, h.kind_ne_unary⟩

theorem Derives.key_ne_assignment {ts : List Token} {n : Node} (h : Derives .hashKey ts n) :
    n.kind ≠ .assignment := by
  cases h with
  | keywordKey => exact Kind.noConfusion
  | valueKey _ hrank => exact Node.kind_ne_assignment hrank

/-- The rules of the grammar group by rank. -/
theorem Derives.grouped {c : Category} {ts : List Token} {n : Node} (h : Derives c ts n) :
    n.Grouped := by
  induction h with
  | quoted _ ih | bareOperand _ ih | single _ _ ih | plainCommand _ ih | nestedType _ ih
  | literalArgument _ _ _ ih | stringAttribute _ ih | valueKey _ _ ih | stringTarget _ ih
  | referenceTarget _ _ ih | stringMatch _ ih | expressionStatement _ ih => exact ih
  | «variable» | variableTarget | name | referenceName | namedTarget | bareVariable =>
    exact Node.grouped_ofName _ _ _
  | binary command t o ho hne _ _ _ hleft hright =>
    obtain ⟨hl, hr⟩ := Operator.rank_le_of_admits hleft hright
    have hvalue := Operator.binary?_rank_le_value ho hne
    exact ⟨o, Operator.named?_of_binary? ho, hleft, hright,
      Node.kind_ne_assignment (hl.trans hvalue), Node.kind_ne_assignment (hr.trans hvalue)⟩
  | assignment command t _ htarget =>
    simpa [Node.Grouped, Node.shape, isAssignable] using htarget
  | prefixed t o _ h =>
    have hrank := h.rank_eq_zero
    exact ⟨hrank, Node.kind_ne_assignment (by omega)⟩
  | indexAccess _ h | methodCall _ _ _ _ h | selector _ _ h => exact h.operand_rank
  | array g _ _ _ hrank =>
    intro e he
    obtain ⟨i, hi, rfl⟩ := List.mem_map.mp he
    exact Node.kind_ne_assignment (hrank i hi)
  | caseItem first colon options _ _ _ hrank =>
    intro e he
    obtain ⟨i, hi, rfl⟩ := List.mem_map.mp he
    exact Node.kind_ne_assignment (hrank i hi)
  | hashEntry _ hk _ _ hv => exact ⟨hk.key_ne_assignment, Node.kind_ne_assignment hv⟩
  | attributeItem _ _ hn _ _ hv =>
    exact ⟨fun hk => absurd (hk ▸ hn.kind_mem) (by decide), Node.kind_ne_assignment hv⟩
  | selectorItem _ _ hk _ _ hv => exact ⟨Node.kind_ne_assignment hk, Node.kind_ne_assignment hv⟩
  | resourceBody _ _ _ hrank => exact Node.kind_ne_assignment hrank
  | parameter first t type star value _ _ _ _ _ hrank =>
    intro v hv
    obtain ⟨x, hx, rfl⟩ := Option.map_eq_some_iff.mp hv
    exact Node.kind_ne_assignment (hrank x hx)
  | _ => trivial

theorem Constituent.grouped {n : Node} (h : Constituent n) : n.Grouped := by
  cases h with
  | derived h => exact h.grouped
  | name => exact Node.grouped_ofName _ _ _
  | fragment f =>
    obtain ⟨text, span, piece⟩ := f
    cases piece with
    | «variable» => exact Node.grouped_ofName _ _ _
    | _ => trivial
  | _ => trivial

theorem Constituent.grouped_preorder {n : Node} (h : Constituent n) :
    ∀ m ∈ n.preorder, m.Grouped := by
  intro m hm
  rcases h.preorder m hm with hc | ⟨l, rfl⟩
  · exact hc.grouped
  · trivial

end Parse

/-- Everything in a parsed tree is grouped by the ranks of the operators. -/
theorem Node.Parsed.grouped {source : Text} {tokens comments : List Token}
    {statements : List Segment} {tree : Node}
    (h : Node.Parsed source tokens comments statements tree) : ∀ n ∈ tree.preorder, n.Grouped :=
  h.constituent.grouped_preorder

end ManifestTree
