import ManifestTree.Proofs.Constituents
import ManifestTree.Proofs.TreeTexts

/-!
# Parsed trees are as declared

The rules of the grammar put into each field what the schema says: a construct of a category has
one of the kinds that the place accepts.  The doubles of a tree are read off digits, so they are
numbers, and its texts have a pair of surrogates only if the source has one.
-/

namespace ManifestTree

open Parse

/-! ## Kinds in places -/

/-- The word of a member that has one is among the words of its type. -/
theorem toWord_mem {α : Type} [Worded α] [DecidableEq α] {a : α}
    (h : a ∈ (Worded.words (α := α)).map Prod.fst) : toWord a ∈ Worded.all α := by
  obtain ⟨p, hp, rfl⟩ := List.mem_map.mp h
  have hfind : (Worded.words.find? fun q => decide (q.1 = p.1)).isSome := by
    rw [List.find?_isSome]
    exact ⟨p, hp, decide_eq_true rfl⟩
  obtain ⟨q, hq⟩ := Option.isSome_iff_exists.mp hfind
  unfold toWord
  rw [hq]
  exact List.mem_map_of_mem (List.mem_of_find?_eq_some hq)

theorem Literal.float_isNumber (text : Text) : (Literal.float text).IsNumber := by
  unfold Literal.float
  dsimp only
  split
  · exact Binary64.ofDecimal_isNumber _ _ _
  · exact Binary64.ofDecimal_isNumber _ _ _

namespace Parse

/-- A category whose constructs a place accepts. -/
def Category.FitsIn (c : Category) (place : Place) : Prop := ∀ k ∈ c.kinds, k ∈ place.kinds

instance (c : Category) (place : Place) : Decidable (c.FitsIn place) :=
  inferInstanceAs (Decidable (∀ k ∈ c.kinds, k ∈ place.kinds))

section Accepted

variable {c : Category} {place : Place} (hc : c.FitsIn place)

include hc

theorem Derives.accepted {ts : List Token} {n : Node} (h : Derives c ts n) :
    (FieldType.child place).Accepts (.child (some n)) := hc _ h.kind_mem

theorem Derives.accepted_within {α : Type} {o : Option α} (part : α → Segment)
    (h : ∀ x ∈ o, Derives c (part x).1 (part x).2) :
    (FieldType.optionalChild place).Accepts (.child (o.map fun x => (part x).2)) := by
  intro n hn
  obtain ⟨x, hx, rfl⟩ := Option.map_eq_some_iff.mp hn
  exact hc _ (h x hx).kind_mem

theorem Derives.accepted_option {o : Option Segment} (h : ∀ x ∈ o, Derives c x.1 x.2) :
    (FieldType.optionalChild place).Accepts (.child (o.map Prod.snd)) :=
  Derives.accepted_within hc id h

theorem Derives.accepted_nodes {xs : List Segment} (h : ∀ x ∈ xs, Derives c x.1 x.2) :
    (FieldType.children place).Accepts (.children (some (xs.map Prod.snd))) := by
  intro n hn
  obtain ⟨x, hx, rfl⟩ := List.mem_map.mp hn
  exact hc _ (h x hx).kind_mem

theorem Derives.accepted_group {o : Option Group}
    (h : ∀ g ∈ o, ∀ x ∈ g.inner.items, Derives c x.1 x.2) :
    (FieldType.optionalChildren place).Accepts (.children (o.map Group.nodes)) := by
  intro ns hns
  obtain ⟨g, hg, rfl⟩ := Option.map_eq_some_iff.mp hns
  exact Derives.accepted_nodes hc (h g hg)

end Accepted

theorem accepts_name (s : Span) (form : NameForm) (cs : Text) :
    (FieldType.child (.only (.scopedName form))).Accepts
      (.child (some (Node.plain s (.ofName form cs)))) := by
  show (Node.plain s (.ofName form cs)).kind ∈ [Kind.scopedName form]
  rw [Node.kind_ofName]
  exact List.mem_singleton_self _

theorem accepts_fragments {fs : List Fragment} {inner : Fragment → Node} :
    (FieldType.children .stringFragment).Accepts
      (.children (some (fs.map fun f => f.nodeOf (inner f)))) := by
  intro n hn
  obtain ⟨f, -, rfl⟩ := List.mem_map.mp hn
  obtain ⟨text, span, piece⟩ := f
  cases piece with
  | «variable» =>
    show (Node.plain span (.ofName .variable (text.drop 1))).kind ∈ _
    rw [Node.kind_ofName]
    decide
  | _ => exact List.contains_iff_mem.mp rfl

/-- The fields of a node hold what the schema of its kind says. -/
def FieldsFit (n : Node) : Prop :=
  List.Forall₂ (fun d f => d.type.Accepts f) n.kind.schema n.shape.fields

theorem fieldsFit_name (s : Span) (form : NameForm) (cs : Text) :
    FieldsFit (Node.plain s (.ofName form cs)) := by
  obtain ⟨segments, absolute, h⟩ := @Shape.ofName_eq Node form cs
  rw [h]
  exact .cons trivial (.cons trivial .nil)

theorem Derives.fieldsFit {c : Category} {ts : List Token} {n : Node} (h : Derives c ts n) :
    FieldsFit n := by
  induction h with
  | quoted _ ih | bareOperand _ ih | single _ _ ih | plainCommand _ ih | nestedType _ ih
  | literalArgument _ _ _ ih | stringAttribute _ ih | valueKey _ _ ih | stringTarget _ ih
  | referenceTarget _ _ ih | stringMatch _ ih | expressionStatement _ ih => exact ih
  | «variable» | variableTarget | name | referenceName | namedTarget | bareVariable =>
    exact fieldsFit_name _ _ _
  | undef | default | defaultMatch => exact .nil
  | integer | regex | boolean | word | wordAttribute | starAttribute | keywordKey | regexMatch =>
    exact .cons trivial .nil
  | float t => exact .cons (Binary64.isNumber_iff.mp (Literal.float_isNumber t.text)).1 .nil
  | string t inner hk hproper hd _ =>
    exact .cons (toWord_mem (by split_ifs <;> decide)) (.cons accepts_fragments .nil)
  | heredoc t tag b inner hk hb hproper hd _ =>
    exact .cons (List.mem_singleton_self _) (.cons (List.mem_singleton_self _) .nil)
  | array g _ _ hd _ _ | hash g _ _ hd _ | parameters g _ _ _ _ hd _ | body g _ _ hd _
  | stringArray g _ _ hd _ =>
    exact .cons (Derives.accepted_nodes (by decide) hd) .nil
  | functionCall t g block _ _ _ hd hb =>
    exact .cons (accepts_name _ _ _) (.cons (Derives.accepted_nodes (by decide) hd)
      (.cons (Derives.accepted_option (by decide) hb) .nil))
  | parenthesized _ _ _ _ hd _ => exact .cons (hd.accepted (by decide)) .nil
  | prefixed t o _ hd _ =>
    exact .cons (toWord_mem (by cases unaryOperator o <;> decide))
      (.cons (hd.accepted (by decide)) .nil)
  | reference t g _ _ _ _ hd _ | resourceDefaults t g _ _ _ hd _ =>
    exact .cons (accepts_name _ _ _) (.cons (Derives.accepted_nodes (by decide) hd) .nil)
  | appliedType t g _ _ _ hd _ =>
    refine .cons (accepts_name _ _ _) (.cons ?_ .nil)
    exact Derives.accepted_group (by decide) (o := some g) fun x hx => Option.mem_some.mp hx ▸ hd
  | resourceCall sign t form g _ _ _ _ _ _ hd _ =>
    exact .cons (toWord_mem (by cases form <;> decide)) (.cons (accepts_name _ _ _)
      (.cons (Derives.accepted_nodes (by decide) hd) .nil))
  | collector t _ _ _ query attributes _ _ _ hq _ _ ha =>
    exact .cons (accepts_name _ _ _) (.cons (Derives.accepted_option (by decide) hq)
      (.cons (Derives.accepted_group (by decide) ha) .nil))
  | indexAccess g ht _ _ _ hd _ _ =>
    exact .cons (ht.accepted (by decide)) (.cons (Derives.accepted_nodes (by decide) hd) .nil)
  | methodCall dot t arguments block hr _ _ _ _ ha hb =>
    exact .cons (hr.accepted (by decide)) (.cons (accepts_name _ _ _)
      (.cons (Derives.accepted_group (by decide) ha)
        (.cons (Derives.accepted_option (by decide) hb) .nil)))
  | selector question g hs _ _ _ hd _ =>
    exact .cons (hs.accepted (by decide)) (.cons (Derives.accepted_nodes (by decide) hd) .nil)
  | binary command _ _ _ _ _ hl hr =>
    exact .cons trivial (.cons (hl.accepted (by cases command <;> decide))
      (.cons (hr.accepted (by cases command <;> decide)) .nil))
  | assignment command _ _ _ hl hr =>
    exact .cons (hl.accepted (by cases command <;> decide))
      (.cons (hr.accepted (by cases command <;> decide)) .nil)
  | commandBinary _ o _ hl hr =>
    exact .cons (toWord_mem (by cases commandOperator o <;> decide))
      (.cons (hl.accepted (by decide)) (.cons (hr.accepted (by decide)) .nil))
  | relation t arrow _ _ _ hl hr =>
    exact .cons (toWord_mem (by cases arrow <;> decide)) (.cons (List.contains_iff_mem.mp hl)
      (.cons (List.contains_iff_mem.mp hr) .nil))
  | typeName t _ =>
    exact .cons (accepts_name _ _ _) (.cons (fun ns hns => by cases hns) .nil)
  | parameter first t type star value ht _ _ _ hv =>
    exact .cons (Derives.accepted_option (by decide) ht) (.cons trivial
      (.cons (accepts_name _ _ _)
        (.cons (Derives.accepted_within (by decide) Prod.snd hv) .nil)))
  | lambda parameters hp hb =>
    exact .cons (Derives.accepted_option (by decide) hp) (.cons (hb.accepted (by decide)) .nil)
  | attributeItem _ o hn _ hv =>
    exact .cons (hn.accepted (by decide)) (.cons (toWord_mem (by cases o <;> decide))
      (.cons (hv.accepted (by decide)) .nil))
  | selectorItem _ hn _ _ hv | hashEntry _ hn _ hv =>
    exact .cons (hn.accepted (by decide)) (.cons (hv.accepted (by decide)) .nil)
  | elsif _ _ hc hb =>
    exact .cons (hc.accepted (by decide)) (.cons (hb.accepted (by decide)) .nil)
  | otherwise _ _ hb | caseDefault _ _ _ _ hb => exact .cons (hb.accepted (by decide)) .nil
  | ifStatement _ elsifs other _ hc hb he ho =>
    exact .cons (hc.accepted (by decide)) (.cons (hb.accepted (by decide))
      (.cons (Derives.accepted_nodes (by decide) he)
        (.cons (Derives.accepted_option (by decide) ho) .nil)))
  | unlessStatement _ other _ hc hb ho =>
    exact .cons (hc.accepted (by decide)) (.cons (hb.accepted (by decide))
      (.cons (Derives.accepted_option (by decide) ho) .nil))
  | caseItem _ _ options _ _ hd _ _ _ hb =>
    exact .cons (Derives.accepted_nodes (by decide) hd) (.cons (hb.accepted (by decide)) .nil)
  | caseStatement _ g _ hs _ _ hd =>
    exact .cons (hs.accepted (by decide)) (.cons (Derives.accepted_nodes (by decide) hd) .nil)
  | nameArray g _ _ hitems =>
    refine .cons ?_ .nil
    intro n hn
    obtain ⟨i, hi, rfl⟩ := List.mem_map.mp hn
    obtain ⟨t, -, rfl⟩ := hitems i hi
    exact accepts_name t.span .identifier t.text
  | composition _ _ targets _ _ _ hd => exact .cons (Derives.accepted_nodes (by decide) hd) .nil
  | declaration _ name k parameters parent _ _ hp _ _ hb =>
    refine .cons (toWord_mem (by cases k <;> decide)) (.cons (accepts_name _ _ _)
      (.cons (Derives.accepted_option (by decide) hp) (.cons ?_
        (.cons (hb.accepted (by decide)) .nil))))
    intro n hn
    obtain ⟨p, -, rfl⟩ := Option.map_eq_some_iff.mp hn
    exact List.mem_singleton_self _
  | typeDeclaration _ name _ _ _ _ ht =>
    exact .cons (accepts_name _ _ _) (.cons (ht.accepted (by decide)) .nil)
  | functionDeclaration _ name parameters result _ _ hp _ hr hb =>
    exact .cons (accepts_name _ _ _) (.cons (Derives.accepted_option (by decide) hp)
      (.cons (Derives.accepted_within (by decide) Prod.snd hr)
        (.cons (hb.accepted (by decide)) .nil)))
  | nodeDefinition _ hosts _ _ _ hd hb =>
    exact .cons (Derives.accepted_nodes (by decide) hd) (.cons (hb.accepted (by decide)) .nil)
  | resourceBody _ attributes ht _ _ _ hd =>
    exact .cons (ht.accepted (by decide)) (.cons (Derives.accepted_nodes (by decide) hd) .nil)

/-! ## Doubles -/

theorem reals_name (s : Span) (form : NameForm) (cs : Text) :
    ∀ r ∈ (Node.plain s (.ofName form cs)).reals, r ≠ .nan := by
  obtain ⟨segments, absolute, h⟩ := @Shape.ofName_eq Node form cs
  rw [h]
  exact List.forall_mem_nil _

/-- Only floats hold a double, and theirs is read off digits. -/
theorem Derives.reals {c : Category} {ts : List Token} {n : Node} (h : Derives c ts n) :
    ∀ r ∈ n.reals, r ≠ .nan := by
  induction h with
  | quoted _ ih | bareOperand _ ih | single _ _ ih | plainCommand _ ih | nestedType _ ih
  | literalArgument _ _ _ ih | stringAttribute _ ih | valueKey _ _ ih | stringTarget _ ih
  | referenceTarget _ _ ih | stringMatch _ ih | expressionStatement _ ih => exact ih
  | «variable» | variableTarget | name | referenceName | namedTarget | bareVariable =>
    exact reals_name _ _ _
  | float t =>
    have hnumber := (Binary64.isNumber_iff.mp (Literal.float_isNumber t.text)).2
    exact List.forall_mem_singleton.mpr hnumber
  | _ => exact List.forall_mem_nil _

/-- Only the star of an attribute is a token by itself, and it keeps no signs. -/
theorem Derives.tokens_of_leaf {c : Category} {ts : List Token} {n : Node} (h : Derives c ts n)
    (hleaf : n.kind.isLeaf = true) : n.tokens = [] := by
  induction h with
  | quoted _ ih | bareOperand _ ih | single _ _ ih | plainCommand _ ih | nestedType _ ih
  | literalArgument _ _ _ ih | stringAttribute _ ih | valueKey _ _ ih | stringTarget _ ih
  | referenceTarget _ _ ih | stringMatch _ ih | expressionStatement _ ih => exact ih hleaf
  | «variable» | variableTarget | name | referenceName | namedTarget | bareVariable
  | starAttribute => rfl
  | _ => exact absurd hleaf Bool.false_ne_true

/-! ## Constituents -/

/-- What a parsed tree may hold is as declared. -/
theorem Constituent.declared {n : Node} (h : Constituent n) : n.Declared := by
  cases h with
  | derived h => exact ⟨h.fieldsFit, h.tokens_of_leaf⟩
  | name s form cs => exact ⟨fieldsFit_name s form cs, fun _ => rfl⟩
  | fragment f inner _ hd =>
    obtain ⟨text, span, piece⟩ := f
    cases piece with
    | content => exact ⟨.cons trivial .nil, fun _ => rfl⟩
    | escape value => exact ⟨.cons trivial (.cons trivial .nil), fun _ => rfl⟩
    | «variable» => exact ⟨fieldsFit_name span .variable (text.drop 1), fun _ => rfl⟩
    | interpolation ts =>
      exact ⟨.cons ((hd ts rfl).accepted (by decide)) .nil, fun h => absurd h Bool.false_ne_true⟩
  | heredocTag t tag =>
    exact ⟨.cons trivial (.cons (toWord_mem (by cases tag.quoting <;> decide))
      (.cons trivial (.cons trivial .nil))), fun _ => rfl⟩
  | heredocBody b inner =>
    refine ⟨.cons (toWord_mem ?_) (.cons accepts_fragments .nil),
      fun h => absurd h Bool.false_ne_true⟩
    obtain ⟨margin, chomp⟩ := b.trim
    cases margin <;> cases chomp <;> decide
  | inheritance keyword name =>
    exact ⟨.cons (accepts_name _ _ _) .nil, fun h => absurd h Bool.false_ne_true⟩
  | comment t => exact ⟨.cons trivial .nil, fun _ => rfl⟩
  | manifest s statements comments hd =>
    refine ⟨.cons (Derives.accepted_nodes (by decide) hd) (.cons ?_ .nil), fun _ => rfl⟩
    intro n hn
    obtain ⟨t, -, rfl⟩ := List.mem_map.mp hn
    exact List.mem_singleton_self _

theorem Constituent.reals {n : Node} (h : Constituent n) : ∀ r ∈ n.reals, r ≠ .nan := by
  cases h with
  | derived h => exact h.reals
  | name s form cs => exact reals_name s form cs
  | fragment f =>
    obtain ⟨text, span, piece⟩ := f
    cases piece with
    | «variable» => exact reals_name span .variable (text.drop 1)
    | _ => exact List.forall_mem_nil _
  | _ => exact List.forall_mem_nil _

theorem Constituent.wellTyped {n : Node} : Constituent n → n.WellTyped := by
  induction n using Node.elements_induction with
  | _ n ih => exact fun h => .of_elements h.declared fun e he => ih e he (h.elements e he)

end Parse

theorem Node.Parsed.wellTyped {source : Text} {tokens comments : List Token}
    {statements : List Segment} {tree : Node}
    (h : Node.Parsed source tokens comments statements tree) :
    tree.kind = .manifest ∧ tree.WellTyped := by
  refine ⟨?_, h.constituent.wellTyped⟩
  rw [h.tree]
  rfl

/-- No double in a parsed tree is the one that is no number. -/
theorem Node.Parsed.reals {source : Text} {tokens comments : List Token}
    {statements : List Segment} {tree : Node}
    (h : Node.Parsed source tokens comments statements tree) :
    ∀ m ∈ tree.preorder, ∀ r ∈ m.reals, r ≠ .nan := by
  intro m hm
  rcases h.constituent.preorder m hm with hm | ⟨l, rfl⟩
  · exact hm.reals
  · exact List.forall_mem_nil _

/-- An artifact keeps a parsed tree if no pair of surrogates occurs in the source. -/
theorem Node.Parsed.storable {source : Text} {tokens comments : List Token}
    {statements : List Segment} {tree : Node}
    (h : Node.Parsed source tokens comments statements tree) (hs : source.Unpaired) :
    tree.Storable :=
  fun m hm => ⟨fun t ht => (h.quotes m hm t ht).unpaired hs, h.reals m hm⟩

end ManifestTree
