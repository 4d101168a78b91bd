import ManifestTree.Proofs.JsonText
import ManifestTree.Proofs.Walk
import ManifestTree.Tree.Stored

/-!
# Stored trees

A tree is as declared if every field of every element holds what the schema of its kind says.  The
stored form of such a tree names the kind of each element and has one member for each field, no two
of one name.  It is a value that JSON text keeps if the tree holds only texts and doubles that JSON
text keeps.
-/

namespace ManifestTree

/-! ## Trees as declared -/

/-- A field holds what its type says.  Where elements may stand they are of the kinds that the
place accepts. -/
def FieldType.Accepts : FieldType → Field Node → Prop
  | .integer, .integer _ => True
  | .real, .real r => r.IsDouble
  | .flag, .flag _ => True
  | .text, .text (some _) => True
  | .optionalText, .text _ => True
  | .texts, .texts _ => True
  | .word words, .word w => w ∈ words
  | .child place, .child (some n) => n.kind ∈ place.kinds
  | .optionalChild place, .child c => ∀ n ∈ c, n.kind ∈ place.kinds
  | .children place, .children (some ns) => ∀ n ∈ ns, n.kind ∈ place.kinds
  | .optionalChildren place, .children c => ∀ ns ∈ c, ∀ n ∈ ns, n.kind ∈ place.kinds
  | _, _ => False

namespace Node

/-- An element as its kind declares it: its fields are those of the schema, and only elements that
are no leaves keep signs. -/
structure Declared (n : Node) : Prop where
  /-- Each field holds what its type says. -/
  fields : List.Forall₂ (fun d f => d.type.Accepts f) n.kind.schema n.shape.fields
  /-- Tokens and comments keep no signs. -/
  tokens : n.kind.isLeaf = true → n.tokens = []

/-- Every element of a tree is as declared. -/
def WellTyped (n : Node) : Prop := ∀ m ∈ n.preorder, m.Declared

end Node

/-- The doubles in a field. -/
def Field.reals {α : Type} : Field α → List Binary64
  | .real r => [r]
  | _ => []

namespace Node

/-- The doubles of a node, without those of its elements. -/
def reals (n : Node) : List Binary64 := n.shape.fields.flatMap Field.reals

/-- What the stored form of an element keeps: texts without pairs of surrogates, and doubles that
are numbers. -/
structure Plain (n : Node) : Prop where
  /-- No text has a high surrogate directly in front of a low one. -/
  texts : ∀ t ∈ n.texts, t.Unpaired
  /-- No double is the one that is no number. -/
  reals : ∀ r ∈ n.reals, r ≠ .nan

/-- Every element of a tree is kept. -/
def Storable (n : Node) : Prop := ∀ m ∈ n.preorder, m.Plain

/-- An element without doubles is kept if its texts are. -/
theorem plain_of_texts {n : Node} (htexts : ∀ t ∈ n.texts, t.Unpaired) (hreals : n.reals = []) :
    n.Plain := by
  refine ⟨htexts, fun r hr => ?_⟩
  rw [hreals] at hr
  cases hr

/-! ## Parts of storable trees -/

theorem WellTyped.self {n : Node} (h : n.WellTyped) : n.Declared := h n (mem_preorder_self n)

theorem WellTyped.element {e n : Node} (h : n.WellTyped) (he : e ∈ n.shape.elements) :
    e.WellTyped := fun m hm => h m (mem_preorder_element he hm)

theorem WellTyped.of_elements {n : Node} (hn : n.Declared)
    (helements : ∀ e ∈ n.shape.elements, e.WellTyped) : n.WellTyped := by
  intro m hm
  rcases mem_preorder.mp hm with rfl | ⟨l, -, rfl⟩ | ⟨e, he, hm⟩
  · exact hn
  · exact ⟨.cons trivial .nil, fun _ => rfl⟩
  · exact helements e he m hm

theorem Storable.self {n : Node} (h : n.Storable) : n.Plain := h n (mem_preorder_self n)

theorem Storable.element {e n : Node} (h : n.Storable) (he : e ∈ n.shape.elements) :
    e.Storable := fun m hm => h m (mem_preorder_element he hm)

theorem Storable.token {n : Node} {l : Leaf} (h : n.Storable) (hl : l ∈ n.tokens) :
    l.text.Unpaired :=
  (h l.toNode (mem_preorder_token hl)).texts _ (List.mem_singleton_self _)

/-- A tree is kept if its root, the signs of the root and the trees below are. -/
theorem Storable.of_elements {n : Node} (hn : n.Plain) (hsigns : ∀ l ∈ n.tokens, l.text.Unpaired)
    (helements : ∀ e ∈ n.shape.elements, e.Storable) : n.Storable := by
  intro m hm
  rcases mem_preorder.mp hm with rfl | ⟨l, hl, rfl⟩ | ⟨e, he, hm⟩
  · exact hn
  · exact plain_of_texts (List.forall_mem_singleton.mpr (hsigns l hl)) rfl
  · exact helements e he m hm

/-! ## Members -/

def members (n : Node) : List (String × Json) :=
  ("span", n.span.toJson) ::
    (if n.kind.isLeaf then [] else [("tokens", Json.array (n.tokens.map Leaf.toJson))]) ++
    n.kind.members (n.shape.fields.map (Field.map toJson))

/-- The stored form of an element has a member for each field, with the stored forms of the
elements in it. -/
theorem toJson_eq (n : Node) : n.toJson = Json.obj n.members := by
  unfold members
  rw [show n.toJson = n.object (Shape.foldNodes object n.shape) from fold_eq object n]
  unfold object
  rw [Shape.foldNodes_fields]
  rfl

end Node

/-! ## Objects -/

theorem Text.ofString_injective {a b : String} (h : Text.ofString a = Text.ofString b) : a = b :=
  String.toList_inj.mp (Text.ofChars_injective h)

/-- A member of an object by its name. -/
theorem Stored.member?_obj {ms : List (String × Json)} (hnames : (ms.map Prod.fst).Nodup)
    {name : String} {j : Json} (h : (name, j) ∈ ms) :
    Stored.member? name (Json.obj ms) = some j := by
  unfold Stored.member? Json.obj Json.member?
  dsimp only
  induction ms with
  | nil => exact absurd h List.not_mem_nil
  | cons m ms ih =>
    rw [List.map_cons, List.nodup_cons] at hnames
    rw [List.map_cons, List.find?_cons]
    rcases List.mem_cons.mp h with rfl | hmem
    · simp
    · have hne : m.1 ≠ name := fun heq => hnames.1 (heq ▸ List.mem_map_of_mem hmem)
      have hne' : Text.ofString m.1 ≠ Text.ofString name := fun heq =>
        hne (Text.ofString_injective heq)
      simp only [hne', decide_false]
      exact ih hnames.2 hmem

/-! ## Kinds -/

namespace Kind

/-- Every kind. -/
def all : List Kind :=
  [.token, .comment, .integer, .float, .boolean, .undef, .default, .bareword, .regex, .content,
    .escape, .identifier, .referenceIdentifier, .variableName, .string, .interpolation, .heredoc,
    .heredocTag, .heredocBody, .array, .hash, .hashEntry, .binary, .commandBinary, .unary,
    .assignment, .parenthesized, .selector, .selectorItem, .type, .parameter, .parameterList,
    .lambda, .functionCall, .methodCall, .indexAccess, .reference, .attribute, .collector false,
    .collector true, .body, .elsif, .else, .if, .unless, .caseItem, .caseDefault, .case,
    .identifierArray, .stringArray, .composition .include, .composition .require,
    .composition .contain, .inheritance, .declaration, .typeDeclaration, .functionDeclaration,
    .nodeDefinition, .resourceBody, .resourceCall, .resourceDefaults, .relation, .manifest]

theorem mem_all (k : Kind) : k ∈ all := by
  cases k with
  | scopedName form => cases form <;> decide
  | collector exported => cases exported <;> decide
  | composition verb => cases verb <;> decide
  | _ => decide

/-- A kind is known by its word. -/
theorem word_injective {k l : Kind} (h : k.word = l.word) : k = l := by
  have hwords : (all.map word).Nodup := by decide +kernel
  exact List.inj_on_of_nodup_map hwords (mem_all k) (mem_all l) h

def memberNames (k : Kind) : List String :=
  "span" :: (if k.isLeaf then [] else ["tokens"]) ++
    if k.kindLast then k.schema.map (·.name) ++ ["kind"] else "kind" :: k.schema.map (·.name)

theorem memberNames_nodup (k : Kind) : k.memberNames.Nodup := by
  have h : ∀ k ∈ all, k.memberNames.Nodup := by decide +kernel
  exact h k (mem_all k)

end Kind

theorem Node.members_names {n : Node} (hn : n.Declared) :
    n.members.map Prod.fst = n.kind.memberNames := by
  have hlength : n.kind.schema.length ≤ (n.shape.fields.map (Field.map Node.toJson)).length := by
    rw [List.length_map, hn.fields.length_eq]
  have hnames : (n.kind.fieldMembers (n.shape.fields.map (Field.map Node.toJson))).map Prod.fst
      = n.kind.schema.map (·.name) := by
    unfold Kind.fieldMembers
    rw [List.map_map]
    show (n.kind.schema.zip _).map (FieldDecl.name ∘ Prod.fst) = _
    rw [← List.map_map, List.map_fst_zip hlength]
  unfold Node.members Kind.memberNames Kind.members
  rw [List.map_append, List.map_cons]
  congr 1
  · split_ifs <;> rfl
  · split_ifs
    · rw [List.map_append, hnames]
      rfl
    · rw [List.map_cons, hnames]
      rfl

/-! ## The stored form as text -/

theorem Text.unpaired_ofChars (cs : List Char) : (Text.ofChars cs).Unpaired := by
  have hlone : ∀ a b : Char, ¬ ((CodePoint.char a).IsHigh ∧ (CodePoint.char b).IsLow) := by
    rintro a - ⟨⟨hlow, hhigh⟩, -⟩
    have hvalid := a.valid
    simp only [UInt32.isValidChar, Nat.isValidChar] at hvalid
    simp only [CodePoint.val_char, Char.toNat] at hlow hhigh
    omega
  apply List.Pairwise.isChain
  unfold Text.ofChars
  rw [List.pairwise_map]
  exact List.pairwise_of_forall hlone

theorem Text.unpaired_of_length {t : Text} (ht : t.length ≤ 1) : t.Unpaired := by
  match t, ht with
  | [], _ => exact .nil
  | [a], _ => exact .singleton a

theorem Text.unpaired_ofString (s : String) : (Text.ofString s).Unpaired :=
  Text.unpaired_ofChars s.toList

theorem Json.readable_obj {ms : List (String × Json)} (hnames : (ms.map Prod.fst).Nodup)
    (hms : ∀ m ∈ ms, m.2.Readable) : (Json.obj ms).Readable := by
  constructor
  · rw [Json.readableMembers_iff]
    intro m hm
    obtain ⟨p, hp, rfl⟩ := List.mem_map.mp hm
    exact ⟨Text.unpaired_ofString p.1, hms p hp⟩
  · have hmap : (ms.map fun m => (Text.ofString m.1, m.2)).map Prod.fst
        = (ms.map Prod.fst).map Text.ofString := by
      rw [List.map_map, List.map_map]
      rfl
    rw [hmap]
    exact hnames.map fun _ _ => Text.ofString_injective

theorem Span.toJson_readable (s : Span) : s.toJson.Readable := by
  apply Json.readable_obj
  · simp
  · intro m hm
    simp only [List.mem_cons, List.not_mem_nil, or_false] at hm
    rcases hm with rfl | rfl | rfl | rfl <;> trivial

theorem Leaf.toJson_readable {l : Leaf} (hl : l.text.Unpaired) : l.toJson.Readable := by
  apply Json.readable_obj
  · simp [Kind.member]
  · intro m hm
    simp only [List.mem_cons, List.not_mem_nil, or_false] at hm
    rcases hm with rfl | rfl | rfl
    · exact l.span.toJson_readable
    · exact Text.unpaired_ofString _
    · exact hl

theorem Field.toJson_readable {type : FieldType} {f : Field Node} (hf : type.Accepts f)
    (hstrings : ∀ t ∈ f.strings, t.Unpaired) (hreals : ∀ r ∈ f.reals, r ≠ .nan)
    (helements : ∀ e ∈ f.elements, e.toJson.Readable) :
    (f.map Node.toJson).toJson.Readable := by
  match f with
  | .integer i => trivial
  | .real r =>
    have hdouble : r.IsDouble := by
      cases type <;> first | exact hf | exact hf.elim
    exact Binary64.isNumber_iff.mpr ⟨hdouble, hreals r (List.mem_singleton_self r)⟩
  | .flag b => trivial
  | .text none => trivial
  | .text (some t) => exact hstrings t (List.mem_singleton_self t)
  | .texts ts =>
    refine Json.readableItems_iff.mpr fun j hj => ?_
    obtain ⟨t, ht, rfl⟩ := List.mem_map.mp hj
    exact hstrings t ht
  | .word w => exact Text.unpaired_ofString w
  | .child none => trivial
  | .child (some n) => exact helements n (List.mem_singleton_self n)
  | .children none => trivial
  | .children (some ns) =>
    refine Json.readableItems_iff.mpr fun j hj => ?_
    obtain ⟨n, hn, rfl⟩ := List.mem_map.mp hj
    exact helements n hn

/-- What a member of an element holds. -/
theorem Node.members_cases {n : Node} {m : String × Json} (h : m ∈ n.members) :
    m.2 = n.span.toJson ∨ m.2 = .array (n.tokens.map Leaf.toJson) ∨ m = n.kind.member ∨
      ∃ p ∈ n.kind.schema.zip n.shape.fields, m.2 = (p.2.map Node.toJson).toJson := by
  have hfield : m ∈ n.kind.fieldMembers (n.shape.fields.map (Field.map Node.toJson)) →
      ∃ p ∈ n.kind.schema.zip n.shape.fields, m.2 = (p.2.map Node.toJson).toJson := by
    unfold Kind.fieldMembers
    rw [List.zip_map_right, List.map_map]
    intro hm
    obtain ⟨p, hp, rfl⟩ := List.mem_map.mp hm
    exact ⟨p, hp, rfl⟩
  unfold Node.members Kind.members at h
  rcases List.mem_append.mp h with h | h
  · rcases List.mem_cons.mp h with rfl | h
    · exact .inl rfl
    · split_ifs at h
      · exact absurd h List.not_mem_nil
      · rw [List.mem_singleton.mp h]
        exact .inr (.inl rfl)
  · split_ifs at h
    · rcases List.mem_append.mp h with h | h
      · exact .inr (.inr (.inr (hfield h)))
      · exact .inr (.inr (.inl (List.mem_singleton.mp h)))
    · rcases List.mem_cons.mp h with h | h
      · exact .inr (.inr (.inl h))
      · exact .inr (.inr (.inr (hfield h)))

/-- The stored form of a well-typed tree is readable if the tree keeps what text can. -/
theorem Node.toJson_readable (n : Node) : n.WellTyped → n.Storable → n.toJson.Readable := by
  induction n using Node.elements_induction with
  | _ n ih =>
    intro hn hstorable
    rw [Node.toJson_eq]
    apply Json.readable_obj
    · rw [Node.members_names hn.self]
      exact Kind.memberNames_nodup n.kind
    · intro m hm
      obtain h | h | rfl | ⟨⟨d, f⟩, hmem, h⟩ := Node.members_cases hm
      · rw [h]
        exact n.span.toJson_readable
      · rw [h]
        refine Json.readableItems_iff.mpr fun j hj => ?_
        obtain ⟨l, hl, rfl⟩ := List.mem_map.mp hj
        exact Leaf.toJson_readable (hstorable.token hl)
      · exact Text.unpaired_ofString _
      · have hf : f ∈ n.shape.fields := (List.of_mem_zip hmem).2
        rw [h]
        apply Field.toJson_readable ((List.forall₂_iff_zip.mp hn.self.fields).2 hmem)
          (fun t ht => hstorable.self.texts t (List.mem_flatMap.mpr ⟨f, hf, ht⟩))
          (fun r hr => hstorable.self.reals r (List.mem_flatMap.mpr ⟨f, hf, hr⟩))
        intro e he
        have helement : e ∈ n.shape.elements := List.mem_flatMap.mpr ⟨f, hf, he⟩
        exact ih e helement (hn.element helement) (hstorable.element helement)

end ManifestTree
