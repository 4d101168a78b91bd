import ManifestTree.Proofs.ParsedTree

/-!
# Constituents of parsed trees

`Parse.Constituent` holds of the nodes that occur in parsed trees: those that some tokens derive,
and the few that rules make by themselves, such as names, fragments and comments.  The elements of
a constituent are constituents again, so everything in a parsed tree is one, or a sign.
-/

namespace ManifestTree

open Parse

namespace Parse

/-- The nodes that occur in parsed trees. -/
inductive Constituent : Node → Prop
  | derived {c : Category} {ts : List Token} {n : Node} : Derives c ts n → Constituent n
  | name (s : Span) (form : NameForm) (cs : Text) :
      Constituent (Node.plain s (.ofName form cs))
  | fragment (f : Fragment) (inner : Node) : f.Proper →
      (∀ ts, f.piece = .interpolation ts → Derives (.expression false) ts.dropLast inner) →
      Constituent (f.nodeOf inner)
  | heredocTag (t : Token) (tag : HeredocTag) : Constituent (t.tagOf tag)
  | heredocBody (b : HeredocBody) (inner : Fragment → Node) : (∀ f ∈ b.fragments, f.Proper) →
      (∀ f ∈ b.fragments, ∀ ts, f.piece = .interpolation ts →
        Derives (.expression false) ts.dropLast (inner f)) →
      Constituent (.mk b.span [b.marker.leaf]
        (.heredocBody b.trim (b.fragments.map fun f => f.nodeOf (inner f))))
  | inheritance (keyword name : Token) : Constituent
      (.mk (keyword.span.join name.span) [keyword.leaf] (.inheritance name.identifier))
  | comment (t : Token) : Constituent t.commentNode
  | manifest (s : Span) (statements : List Segment) (comments : List Token) :
      (∀ x ∈ statements, Derives .statement x.1 x.2) →
      Constituent (Node.plain s
        (.manifest (statements.map Prod.snd) (comments.map Token.commentNode)))

theorem Constituent.identifier (t : Token) : Constituent t.identifier := .name _ _ _

theorem Constituent.referenceIdentifier (t : Token) : Constituent t.referenceIdentifier :=
  .name _ _ _

theorem Constituent.variableNode (t : Token) : Constituent t.variableNode := .name _ _ _

theorem Shape.elements_ofName (form : NameForm) (cs : Text) :
    (Shape.ofName form cs : Shape Node).elements = [] := by
  obtain ⟨segments, absolute, h⟩ := @Shape.ofName_eq Node form cs
  rw [h]
  rfl

theorem Constituent.nodes {c : Category} {xs : List Segment}
    (h : ∀ i ∈ xs, Derives c i.1 i.2) : ∀ e ∈ xs.map Prod.snd, Constituent e := by
  intro e he
  obtain ⟨i, hi, rfl⟩ := List.mem_map.mp he
  exact .derived (h i hi)

theorem Constituent.option {c : Category} {o : Option Segment}
    (h : ∀ i ∈ o, Derives c i.1 i.2) : ∀ e ∈ (o.map Prod.snd).toList, Constituent e := by
  cases o with
  | none => exact List.forall_mem_nil _
  | some i => simpa using Constituent.derived (h i rfl)

theorem Constituent.groupNodes {c : Category} {o : Option Group}
    (h : ∀ g ∈ o, ∀ i ∈ g.inner.items, Derives c i.1 i.2) :
    ∀ e ∈ (o.map Group.nodes).getD [], Constituent e := by
  cases o with
  | none => exact List.forall_mem_nil _
  | some g => exact Constituent.nodes (h g rfl)

theorem Derives.elements {c : Category} {ts : List Token} {n : Node} (h : Derives c ts n) :
    ∀ e ∈ n.shape.elements, Constituent e := by
  have forall_elements (s : Shape Node) (h : ∀ x ∈ s.fields, ∀ e ∈ x.elements, Constituent e) :
      ∀ e ∈ s.elements, Constituent e := by
    intro e he
    obtain ⟨x, hx, he⟩ := List.mem_flatMap.mp he
    exact h x hx e he
  induction h with
  | quoted _ ih | bareOperand _ ih | single _ _ ih | plainCommand _ ih | nestedType _ ih
  | literalArgument _ _ _ ih | stringAttribute _ ih | valueKey _ _ ih | stringTarget _ ih
  | referenceTarget _ _ ih | stringMatch _ ih | expressionStatement _ ih => exact ih
  | «variable» | variableTarget | name | referenceName | namedTarget | bareVariable =>
    show ∀ e ∈ (Shape.ofName _ _ : Shape Node).elements, _
    rw [Shape.elements_ofName]
    exact List.forall_mem_nil _
  | integer | float | regex | boolean | undef | default | word | wordAttribute | starAttribute
  | keywordKey | regexMatch | defaultMatch => exact List.forall_mem_nil _
  | string t inner hk hproper hd _ =>
    refine forall_elements _ ?_
    simp [Node.shape, Token.stringOf, Shape.fields, Field.elements]
    exact fun f hf => .fragment f (inner f) (hproper f hf) (hd f hf)
  | heredoc t tag b inner hk hb hproper hd _ =>
    refine forall_elements _ ?_
    simp [Node.shape, Node.plain, Token.heredocOf, Shape.fields, Field.elements]
    exact ⟨.heredocTag t tag, .heredocBody b inner hproper hd⟩
  | array g _ _ hd _ _ | hash g _ _ hd _ | parameters g _ _ _ _ hd _ | body g _ _ hd _
  | stringArray g _ _ hd _ =>
    refine forall_elements _ ?_
    simp [Node.shape, Shape.fields, Field.elements, -Option.mem_toList]
    exact Constituent.nodes hd
  | functionCall t g block _ _ _ hd hb =>
    refine forall_elements _ ?_
    simp [Node.shape, Shape.fields, Field.elements, -Option.mem_toList]
    exact ⟨.identifier t, Constituent.nodes hd, Constituent.option hb⟩
  | parenthesized _ _ _ _ hd _ | prefixed _ _ _ hd _ =>
    refine forall_elements _ ?_
    simp [Node.shape, Shape.fields, Field.elements, -Option.mem_toList]
    exact .derived hd
  | reference t g _ _ _ _ hd _ | appliedType t g _ _ _ hd _ | resourceDefaults t g _ _ _ hd _ =>
    refine forall_elements _ ?_
    simp [Node.shape, Shape.fields, Field.elements]
    exact ⟨.referenceIdentifier t, Constituent.nodes hd⟩
  | resourceCall sign t form g _ _ _ _ _ _ hd _ =>
    refine forall_elements _ ?_
    simp [Node.shape, Shape.fields, Field.elements]
    exact ⟨.identifier t, Constituent.nodes hd⟩
  | collector t _ _ _ query attributes _ _ _ hq _ _ ha =>
    refine forall_elements _ ?_
    simp [Node.shape, Shape.fields, Field.elements, -Option.mem_toList]
    exact ⟨.referenceIdentifier t, Constituent.option hq, Constituent.groupNodes ha⟩
  | indexAccess g ht _ _ _ hd _ _ =>
    refine forall_elements _ ?_
    simp [Node.shape, Shape.fields, Field.elements, -Option.mem_toList]
    exact ⟨.derived ht, Constituent.nodes hd⟩
  | methodCall dot t arguments block hr _ _ _ _ ha hb =>
    refine forall_elements _ ?_
    simp [Node.shape, Shape.fields, Field.elements, -Option.mem_toList]
    exact ⟨.derived hr, .identifier t, Constituent.groupNodes ha, Constituent.option hb⟩
  | selector question g hs _ _ _ hd _ =>
    refine forall_elements _ ?_
    simp [Node.shape, Shape.fields, Field.elements, -Option.mem_toList]
    exact ⟨.derived hs, Constituent.nodes hd⟩
  | binary _ _ _ _ _ _ hl hr | assignment _ _ _ _ hl hr | commandBinary _ _ _ hl hr
  | relation _ _ _ hl hr =>
    refine forall_elements _ ?_
    simp [Node.shape, Shape.fields, Field.elements, -Option.mem_toList]
    exact ⟨.derived hl, .derived hr⟩
  | typeName t _ =>
    refine forall_elements _ ?_
    simp [Node.shape, Node.plain, Shape.fields, Field.elements]
    exact .referenceIdentifier t
  | parameter first t type star value ht _ _ _ hv =>
    refine forall_elements _ ?_
    simp [Node.shape, Shape.fields, Field.elements, -Option.mem_toList]
    refine ⟨Constituent.option ht, .variableNode t, ?_⟩
    cases value with
    | none => exact List.forall_mem_nil _
    | some x => simpa using Constituent.derived (hv x rfl)
  | lambda parameters hp hb =>
    refine forall_elements _ ?_
    simp [Node.shape, Node.plain, Shape.fields, Field.elements, -Option.mem_toList]
    exact ⟨Constituent.option hp, .derived hb⟩
  | attributeItem _ _ hn _ hv | selectorItem _ hn _ _ hv | hashEntry _ hn _ hv =>
    refine forall_elements _ ?_
    simp [Node.shape, Shape.fields, Field.elements, -Option.mem_toList]
    exact ⟨.derived hn, .derived hv⟩
  | elsif _ _ hc hb =>
    refine forall_elements _ ?_
    simp [Node.shape, Shape.fields, Field.elements, -Option.mem_toList]
    exact ⟨.derived hc, .derived hb⟩
  | otherwise _ _ hb | caseDefault _ _ _ _ hb =>
    refine forall_elements _ ?_
    simp [Node.shape, Shape.fields, Field.elements, -Option.mem_toList]
    exact .derived hb
  | ifStatement _ elsifs other _ hc hb he ho =>
    refine forall_elements _ ?_
    simp [Node.shape, Shape.fields, Field.elements, -Option.mem_toList]
    exact ⟨.derived hc, .derived hb, fun e ts he' => .derived (he _ he'), Constituent.option ho⟩
  | unlessStatement _ other _ hc hb ho =>
    refine forall_elements _ ?_
    simp [Node.shape, Shape.fields, Field.elements, -Option.mem_toList]
    exact ⟨.derived hc, .derived hb, Constituent.option ho⟩
  | caseItem _ _ options _ _ hd _ _ _ hb =>
    refine forall_elements _ ?_
    simp [Node.shape, Shape.fields, Field.elements, -Option.mem_toList]
    exact ⟨Constituent.nodes hd, .derived hb⟩
  | caseStatement _ g _ hs _ _ hd =>
    refine forall_elements _ ?_
    simp [Node.shape, Shape.fields, Field.elements, -Option.mem_toList]
    exact ⟨.derived hs, Constituent.nodes hd⟩
  | nameArray g _ _ hitems =>
    refine forall_elements _ ?_
    simp [Node.shape, Shape.fields, Field.elements]
    intro e he
    obtain ⟨i, hi, rfl⟩ := List.mem_map.mp he
    obtain ⟨t, -, rfl⟩ := hitems i hi
    exact .identifier t
  | composition _ _ targets _ _ _ hd =>
    refine forall_elements _ ?_
    simp [Node.shape, Shape.fields, Field.elements, -Option.mem_toList]
    exact Constituent.nodes hd
  | declaration _ name k parameters parent _ _ hp _ _ hb =>
    refine forall_elements _ ?_
    simp [Node.shape, Shape.fields, Field.elements, -Option.mem_toList]
    refine ⟨.identifier name, Constituent.option hp, ?_, .derived hb⟩
    cases parent with
    | none => exact List.forall_mem_nil _
    | some p => simpa using Constituent.inheritance p.1 p.2
  | typeDeclaration _ name _ _ _ _ ht =>
    refine forall_elements _ ?_
    simp [Node.shape, Shape.fields, Field.elements, -Option.mem_toList]
    exact ⟨.referenceIdentifier name, .derived ht⟩
  | functionDeclaration _ name parameters result _ _ hp _ hr hb =>
    refine forall_elements _ ?_
    simp [Node.shape, Shape.fields, Field.elements, -Option.mem_toList]
    refine ⟨.identifier name, Constituent.option hp, ?_, .derived hb⟩
    cases result with
    | none => exact List.forall_mem_nil _
    | some r => simpa using Constituent.derived (hr r rfl)
  | nodeDefinition _ hosts _ _ _ hd hb =>
    refine forall_elements _ ?_
    simp [Node.shape, Shape.fields, Field.elements, -Option.mem_toList]
    exact ⟨Constituent.nodes hd, .derived hb⟩
  | resourceBody _ attributes ht _ _ _ hd =>
    refine forall_elements _ ?_
    simp [Node.shape, Shape.fields, Field.elements, -Option.mem_toList]
    exact ⟨.derived ht, Constituent.nodes hd⟩

theorem Constituent.elements {n : Node} (h : Constituent n) :
    ∀ e ∈ n.shape.elements, Constituent e := by
  cases h with
  | derived h => exact h.elements
  | name s form cs =>
    show ∀ e ∈ (Shape.ofName form cs : Shape Node).elements, _
    rw [Shape.elements_ofName]
    exact List.forall_mem_nil _
  | heredocTag | comment => exact List.forall_mem_nil _
  | inheritance keyword name =>
    simpa [Node.shape, Shape.elements, Shape.fields, Field.elements] using
      Constituent.identifier name
  | heredocBody b inner hproper hd =>
    simp [Node.shape, Shape.elements, Shape.fields, Field.elements]
    exact fun f hf => .fragment f (inner f) (hproper f hf) (hd f hf)
  | manifest s statements comments hd =>
    simp [Node.shape, Node.plain, Shape.elements, Shape.fields, Field.elements]
    rintro e (⟨ts, hs⟩ | ⟨t, -, rfl⟩)
    · exact .derived (hd _ hs)
    · exact .comment t
  | fragment f inner hproper hd =>
    obtain ⟨text, span, piece⟩ := f
    cases piece with
    | content | escape => exact List.forall_mem_nil _
    | «variable» =>
      show ∀ e ∈ (Shape.ofName _ _ : Shape Node).elements, _
      rw [Shape.elements_ofName]
      exact List.forall_mem_nil _
    | interpolation ts =>
      simpa [Fragment.nodeOf, Fragment.piece, Node.shape, Shape.elements, Shape.fields,
        Field.elements] using Constituent.derived (hd ts rfl)

/-- Everything in the tree of a constituent is one, or a sign. -/
theorem Constituent.preorder {n : Node} (h : Constituent n) :
    ∀ m ∈ n.preorder, Constituent m ∨ ∃ l : Leaf, m = l.toNode :=
  Node.forall_preorder (fun _ => Constituent.elements) h

end Parse

theorem Node.Parsed.constituent {source : Text} {tokens comments : List Token}
    {statements : List Segment} {tree : Node}
    (h : Node.Parsed source tokens comments statements tree) : Constituent tree := by
  rw [h.tree]
  exact .manifest _ statements comments h.derives

end ManifestTree
