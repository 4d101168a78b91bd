import ManifestTree.Tree.Traversal

/-!
# Walks and folds

A fold computes a value for a node from the values of the elements in its shape, each in the place
of its element: each field holds the values for its elements.  The listing of a subtree is such a
fold.  Up to order it is the root followed by its signs and the listings of the elements it holds.
-/

namespace ManifestTree

/-! ## Folds -/

/-- A field with other elements in the same places. -/
def Field.map {α β : Type} (g : α → β) : Field α → Field β
  | .integer i => .integer i
  | .real r => .real r
  | .flag b => .flag b
  | .text t => .text t
  | .texts ts => .texts ts
  | .word w => .word w
  | .child c => .child (c.map g)
  | .children cs => .children (cs.map (List.map g))

theorem Field.elements_map {α β : Type} (g : α → β) (x : Field α) :
    (x.map g).elements = x.elements.map g := by
  cases x with
  | child c => cases c <;> rfl
  | children cs => cases cs <;> rfl
  | _ => rfl

/-- A field whose elements stay stays. -/
theorem Field.map_eq_self {α : Type} {g : α → α} {x : Field α} (h : ∀ a ∈ x.elements, g a = a) :
    x.map g = x := by
  cases x with
  | child c =>
    cases c with
    | none => rfl
    | some a => exact congrArg (Field.child ∘ some) (h a List.mem_cons_self)
  | children cs =>
    cases cs with
    | none => rfl
    | some as =>
      have hmap : as.map g = as := (List.map_congr_left h).trans (List.map_id' as)
      exact congrArg (Field.children ∘ some) hmap
  | _ => rfl

def Field.strings {α : Type} : Field α → List Text
  | .text t => t.toList
  | .texts ts => ts
  | _ => []

/-- The texts of a node, without those of its signs and elements. -/
def Node.texts (n : Node) : List Text := n.shape.fields.flatMap Field.strings

section Folds

variable {β : Type} (f : Node → Shape β → β)

theorem Node.foldList_eq (ns : List Node) : Node.foldList f ns = ns.map (Node.fold f) := by
  induction ns with
  | nil => rfl
  | cons n ns ih => rw [Node.foldList, ih, List.map_cons]

theorem Node.foldOption_eq (o : Option Node) : Node.foldOption f o = o.map (Node.fold f) := by
  cases o <;> rfl

theorem Node.foldOptionalList_eq (o : Option (List Node)) :
    Node.foldOptionalList f o = o.map (List.map (Node.fold f)) := by
  cases o with
  | none => rfl
  | some ns => rw [Node.foldOptionalList, Node.foldList_eq, Option.map_some]

theorem Node.fold_eq (n : Node) : n.fold f = f n (Shape.foldNodes f n.shape) := by
  cases n
  rfl

/-- A fold keeps the fields but for the elements in them. -/
theorem Shape.foldNodes_fields (s : Shape Node) :
    (Shape.foldNodes f s).fields = s.fields.map (Field.map (Node.fold f)) := by
  cases s <;>
    simp only [Shape.foldNodes, Shape.fields, List.map, Field.map, Node.foldList_eq,
      Node.foldOption_eq, Node.foldOptionalList_eq, Option.map_some]

theorem Shape.elements_string {α : Type} (quote : QuoteStyle) (fragments : List α) :
    (Shape.string quote fragments).elements = fragments := List.append_nil _

theorem Shape.elements_heredocBody {α : Type} (trim : Trim) (fragments : List α) :
    (Shape.heredocBody trim fragments).elements = fragments := List.append_nil _

theorem Shape.elements_manifest {α : Type} (statements comments : List α) :
    (Shape.manifest statements comments).elements = statements ++ comments := by
  simp [elements, fields, Field.elements]

theorem Shape.foldNodes_elements (s : Shape Node) :
    (Shape.foldNodes f s).elements = s.elements.map (Node.fold f) := by
  unfold Shape.elements
  rw [Shape.foldNodes_fields, List.flatMap_map, List.map_flatMap]
  simp only [Field.elements_map]

theorem Shape.foldNodes_eq_self {f : Node → Shape Node → Node} {s : Shape Node}
    (h : ∀ e ∈ s.elements, e.fold f = e) : Shape.foldNodes f s = s := by
  have hkind : (Shape.foldNodes f s).kind = s.kind := by cases s <;> rfl
  have hfields : (Shape.foldNodes f s).fields = s.fields := by
    have hmap : s.fields.map (Field.map (Node.fold f)) = s.fields.map id :=
      List.map_congr_left fun x hx => Field.map_eq_self fun e he =>
        h e (List.mem_flatMap.mpr ⟨x, hx, he⟩)
    rw [Shape.foldNodes_fields, hmap, List.map_id]
  have hshape := Shape.ofFields?_fields (Shape.foldNodes f s)
  rw [hkind, hfields, Shape.ofFields?_fields] at hshape
  exact (Option.some.inj hshape).symm

end Folds

/-! ## Listings -/

theorem sortByStart_perm {α : Type} (start : α → Int) (items : List α) :
    (sortByStart start items).Perm items :=
  List.mergeSort_perm items _

theorem sortByStart_pairwise {α : Type} (start : α → Int) (items : List α) :
    (sortByStart start items).Pairwise fun a b => start a ≤ start b := by
  have h : (sortByStart start items).Pairwise fun a b => decide (start a ≤ start b) = true :=
    List.pairwise_mergeSort (by simp; omega) (by simp; omega) items
  exact h.imp of_decide_eq_true

namespace Node

/-- A subtree is its root, the signs of the root, and the subtrees below it. -/
theorem preorder_perm (n : Node) :
    n.preorder.Perm (n :: (n.tokens.map Leaf.toNode ++ n.shape.elements.flatMap preorder)) := by
  unfold preorder
  rw [Node.fold_eq]
  dsimp only
  refine .cons n (((sortByStart_perm _ _).flatMap_right _).trans ?_)
  rw [List.flatMap_append, Shape.foldNodes_elements, List.flatMap_map, List.flatMap_map]
  simp only [← List.map_eq_flatMap]
  exact .refl _

/-- What is below a root is one of its signs or below one of its elements. -/
theorem mem_preorder {m n : Node} :
    m ∈ n.preorder ↔ m = n ∨ (∃ l ∈ n.tokens, m = l.toNode) ∨
      ∃ e ∈ n.shape.elements, m ∈ e.preorder := by
  rw [(preorder_perm n).mem_iff]
  simp [eq_comm]

/-- A subtree is larger than those below it. -/
theorem preorder_length_lt {e n : Node} (he : e ∈ n.shape.elements) :
    e.preorder.length < n.preorder.length := by
  have hle : e.preorder.length ≤ (n.shape.elements.flatMap preorder).length := by
    rw [List.flatMap_def]
    exact (List.sublist_flatten_of_mem (List.mem_map_of_mem he)).length_le
  have hlength := (preorder_perm n).length_eq
  rw [List.length_cons, List.length_append] at hlength
  omega

/-- What holds of a node if it holds of the elements in its shape holds of every node. -/
theorem elements_induction {P : Node → Prop} (h : ∀ n, (∀ e ∈ n.shape.elements, P e) → P n)
    (n : Node) : P n := by
  induction hsize : n.preorder.length using Nat.strongRecOn generalizing n with
  | _ size ih =>
    exact h n fun e he => ih _ (hsize ▸ preorder_length_lt he) e rfl

theorem mem_preorder_self (n : Node) : n ∈ n.preorder := mem_preorder.mpr (.inl rfl)

theorem mem_preorder_token {n : Node} {l : Leaf} (hl : l ∈ n.tokens) : l.toNode ∈ n.preorder :=
  mem_preorder.mpr (.inr (.inl ⟨l, hl, rfl⟩))

theorem mem_preorder_element {m e n : Node} (he : e ∈ n.shape.elements) (hm : m ∈ e.preorder) :
    m ∈ n.preorder :=
  mem_preorder.mpr (.inr (.inr ⟨e, he, hm⟩))

/-- What passes from a node to the elements of its shape holds everywhere below a node that has it,
the signs apart. -/
theorem forall_preorder {P : Node → Prop} (hP : ∀ n, P n → ∀ e ∈ n.shape.elements, P e)
    {n : Node} (hn : P n) : ∀ m ∈ n.preorder, P m ∨ ∃ l : Leaf, m = l.toNode := by
  induction n using elements_induction with
  | _ n ih =>
    intro m hm
    rcases mem_preorder.mp hm with rfl | ⟨l, -, rfl⟩ | ⟨e, he, hm⟩
    · exact .inl hn
    · exact .inr ⟨l, rfl⟩
    · exact ih e he (hP n hn e he) m hm

theorem preorder_sign (l : Leaf) : l.toNode.preorder = [l.toNode] :=
  List.perm_singleton.mp (preorder_perm l.toNode)

theorem preorder_trans {b m n : Node} (hb : b ∈ n.preorder) (hm : m ∈ b.preorder) :
    m ∈ n.preorder := by
  induction n using elements_induction with
  | _ n ih =>
    rcases mem_preorder.mp hb with rfl | ⟨l, hl, rfl⟩ | ⟨e, he, hb⟩
    · exact hm
    · rw [preorder_sign] at hm
      rw [List.mem_singleton.mp hm]
      exact mem_preorder_token hl
    · exact mem_preorder_element he (ih e he hb)

theorem isLeaf_iff {n : Node} :
    n.isLeaf ↔ n.kind ≠ .comment ∧ n.tokens = [] ∧ n.shape.elements = [] := by
  have h : n.children = [] ↔ n.tokens.map Leaf.toNode ++ n.shape.elements = [] := by
    rw [← List.length_eq_zero_iff, ← List.length_eq_zero_iff, children,
      (sortByStart_perm _ _).length_eq]
  unfold isLeaf
  simp [List.isEmpty_iff, h]

end Node

end ManifestTree
