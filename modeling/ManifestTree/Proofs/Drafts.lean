import ManifestTree.Proofs.StoredTree

/-!
# Drafts of stored trees

A draft is a stored value together with the values it may become.  Members of names that are not
declared may be added to its objects.  A member that holds the default of its field may be left
out.  A span may be deleted too, and so may a number of a span, but this counts as a loss.
`Node.draft` is the draft of the stored form of an element.
-/

namespace ManifestTree

/-- A value and what it may become. -/
structure Draft where
  /-- The value as it is stored. -/
  json : Json
  /-- The value may become another with so many losses. -/
  Becomes : ℕ → Json → Prop

namespace Draft

/-! ## Parts of drafts -/

/-- A value that stays as it is. -/
def exact (j : Json) : Draft := ⟨j, fun lost j' => lost = 0 ∧ j' = j⟩

/-- What items may become, each of its own. -/
inductive Items : List Draft → ℕ → List Json → Prop
  | nil : Items [] 0 []
  | cons {d : Draft} {ds : List Draft} {lost rest : ℕ} {j : Json} {js : List Json} :
    d.Becomes lost j → Items ds rest js → Items (d :: ds) (lost + rest) (j :: js)

def array (ds : List Draft) : Draft :=
  ⟨.array (ds.map json), fun lost j => ∃ js, j = .array js ∧ Items ds lost js⟩

/-- A declared member of an object. -/
structure Slot where
  /-- Its name. -/
  name : String
  /-- Its value. -/
  draft : Draft
  /-- The default of the field, where it has one. -/
  default? : Option Json := none
  /-- It is a span or a number of one. -/
  vital : Bool := false

/-- What may become of a declared member: another value, or nothing. -/
inductive Fate (e : Slot) : ℕ → Option Json → Prop
  | kept {lost : ℕ} {j : Json} : e.draft.Becomes lost j → Fate e lost (some j)
  /-- It may be left out if its value is the default. -/
  | omitted : e.default? = some e.draft.json → Fate e 0 none
  /-- It is lost. -/
  | deleted : e.vital = true → Fate e 1 none

/-- What the members of an object may become.  Others may come between them if their names are not
declared. -/
inductive Members (declared : List String) : List Slot → ℕ → List (Text × Json) → Prop
  | nil : Members declared [] 0 []
  | added {es : List Slot} {lost : ℕ} {name : Text} {j : Json} {ms : List (Text × Json)} :
    (∀ s ∈ declared, Text.ofString s ≠ name) → Members declared es lost ms →
      Members declared es lost ((name, j) :: ms)
  | present {e : Slot} {es : List Slot} {lost rest : ℕ} {j : Json} {ms : List (Text × Json)} :
    Fate e lost (some j) → Members declared es rest ms →
      Members declared (e :: es) (lost + rest) ((Text.ofString e.name, j) :: ms)
  | absent {e : Slot} {es : List Slot} {lost rest : ℕ} {ms : List (Text × Json)} :
    Fate e lost none → Members declared es rest ms → Members declared (e :: es) (lost + rest) ms

/-- An object of declared members. -/
def object (es : List Slot) : Draft :=
  ⟨Json.obj (es.map fun e => (e.name, e.draft.json)),
    fun lost j => ∃ ms, j = .object ms ∧ Members (es.map Slot.name) es lost ms⟩

end Draft

open Draft (Slot)

/-! ## Drafts of elements -/

/-- A span loses each of its numbers that is deleted. -/
def Span.draft (s : Span) : Draft :=
  let numbers := [("start", s.start), ("end", s.stop), ("line", s.line), ("column", s.column)]
  Draft.object (numbers.map fun p => { name := p.1, draft := .exact (.integer p.2), vital := true })

def Span.slot (s : Span) : Slot := { name := "span", draft := s.draft, vital := true }

def Kind.slot (k : Kind) : Slot := { name := "kind", draft := .exact (Json.str k.word) }

/-- A sign as a token element. -/
def Leaf.draft (l : Leaf) : Draft :=
  Draft.object
    [l.span.slot, Kind.token.slot, { name := "text", draft := .exact (.string l.text) }]

/-- The signs of an element. -/
def Leaf.slot (ls : List Leaf) : Slot :=
  { name := "tokens", draft := .array (ls.map Leaf.draft), default? := some (.array []) }

/-- The value of a field whose elements are drafts already. -/
def Field.draft : Field Draft → Draft
  | .child (some d) => d
  | .children (some ds) => .array ds
  | f => .exact (f.map Draft.json).toJson

/-- The default that a field declares. -/
def Omission.default? : Omission → Option Json
  | .required => none
  | .absent => some .null
  | .emptyList => some (.array [])
  | .no => some (.bool false)
  | .word w => some (Json.str w)

def FieldDecl.slot (d : FieldDecl) (f : Field Draft) : Slot :=
  { name := d.name, draft := f.draft, default? := d.omission.default? }

def Kind.fieldSlots (k : Kind) (fields : List (Field Draft)) : List Slot :=
  (k.schema.zip fields).map fun p => p.1.slot p.2

/-- The declared members of an element, given the drafts in its fields. -/
def Node.slotsOf (n : Node) (fields : List (Field Draft)) : List Slot :=
  n.span.slot :: (if n.kind.isLeaf then [] else [Leaf.slot n.tokens]) ++
    if n.kind.kindLast then n.kind.fieldSlots fields ++ [n.kind.slot]
    else n.kind.slot :: n.kind.fieldSlots fields

/-- The draft of the stored form of an element. -/
def Node.draft (n : Node) : Draft :=
  n.fold fun n shape => Draft.object (n.slotsOf shape.fields)

/-- The declared members of an element. -/
def Node.slots (n : Node) : List Slot :=
  n.slotsOf (n.shape.fields.map (Field.map Node.draft))

theorem Node.draft_eq (n : Node) : n.draft = Draft.object n.slots := by
  unfold slots
  rw [show n.draft = Draft.object (n.slotsOf (Shape.foldNodes _ n.shape).fields) from
    fold_eq _ n, Shape.foldNodes_fields]
  rfl

/-! ## The stored form -/

theorem Span.draft_json (s : Span) : s.draft.json = s.toJson := rfl

theorem Leaf.draft_json (l : Leaf) : l.draft.json = l.toJson := rfl

theorem Leaf.slot_json (ls : List Leaf) :
    (Leaf.slot ls).draft.json = .array (ls.map Leaf.toJson) := by
  show Json.array ((ls.map Leaf.draft).map Draft.json) = _
  rw [List.map_map]
  rfl

/-- The draft of a field is that of its stored form if this holds of the elements in it. -/
theorem Field.draft_json {f : Field Node} (h : ∀ e ∈ f.elements, e.draft.json = e.toJson) :
    (f.map Node.draft).draft.json = (f.map Node.toJson).toJson := by
  cases f with
  | child c =>
    cases c with
    | none => rfl
    | some e => exact h e (List.mem_singleton_self e)
  | children cs =>
    cases cs with
    | none => rfl
    | some es =>
      show Json.array ((es.map Node.draft).map Draft.json) = .array (es.map Node.toJson)
      rw [List.map_map]
      exact congrArg Json.array (List.map_congr_left h)
  | text t => cases t <;> rfl
  | _ => rfl

namespace Node

/-- The declared members are those of the stored form if this holds of the elements below. -/
theorem slots_json {n : Node} (h : ∀ e ∈ n.shape.elements, e.draft.json = e.toJson) :
    n.slots.map (fun e => (e.name, e.draft.json)) = n.members := by
  have hfields : (n.kind.fieldSlots (n.shape.fields.map (Field.map draft))).map
      (fun e => (e.name, e.draft.json))
      = n.kind.fieldMembers (n.shape.fields.map (Field.map toJson)) := by
    unfold Kind.fieldSlots Kind.fieldMembers
    rw [List.zip_map_right, List.zip_map_right, List.map_map, List.map_map, List.map_map]
    refine List.map_congr_left fun p hp => ?_
    have hjson := Field.draft_json fun e he =>
      h e (List.mem_flatMap.mpr ⟨p.2, (List.of_mem_zip hp).2, he⟩)
    exact congrArg (Prod.mk p.1.name) hjson
  unfold slots slotsOf members Kind.members
  rw [List.map_append, List.map_cons]
  congr 2
  · split_ifs
    · rfl
    · rw [List.map_singleton, Leaf.slot_json]
      rfl
  · split_ifs
    · rw [List.map_append, hfields]
      rfl
    · rw [List.map_cons, hfields]
      rfl

/-- The draft of an element is that of its stored form. -/
theorem draft_json (n : Node) : n.draft.json = n.toJson := by
  induction n using elements_induction with
  | _ n ih =>
    rw [draft_eq, toJson_eq, ← slots_json ih]
    rfl

/-- An object has the names that its kind declares. -/
theorem slots_names {n : Node} (hn : n.Declared) :
    n.slots.map Slot.name = n.kind.memberNames := by
  rw [← members_names hn, ← slots_json fun e _ => e.draft_json, List.map_map]
  rfl

end Node

/-! ## Nothing lost -/

namespace Draft

/-- A member whose value loses nothing is kept. -/
theorem Members.keep {declared : List String} {e : Slot} {es : List Slot} {lost : ℕ} {j : Json}
    {ms : List (Text × Json)} (h : e.draft.Becomes 0 j) (hrest : Members declared es lost ms) :
    Members declared (e :: es) lost ((Text.ofString e.name, j) :: ms) := by
  rw [← Nat.zero_add lost]
  exact .present (.kept h) hrest

/-- A member with the default of its field is left out. -/
theorem Members.omit {declared : List String} {e : Slot} {es : List Slot} {lost : ℕ}
    {ms : List (Text × Json)} (h : e.default? = some e.draft.json)
    (hrest : Members declared es lost ms) : Members declared (e :: es) lost ms := by
  rw [← Nat.zero_add lost]
  exact .absent (.omitted h) hrest

/-- A draft may stay as it is. -/
def Stays (d : Draft) : Prop := d.Becomes 0 d.json

theorem exact_stays (j : Json) : (exact j).Stays := ⟨rfl, rfl⟩

theorem array_stays {ds : List Draft} (h : ∀ d ∈ ds, d.Stays) : (array ds).Stays := by
  refine ⟨_, rfl, ?_⟩
  induction ds with
  | nil => exact .nil
  | cons d ds ih =>
    have hrest := ih fun d hd => h d (List.mem_cons_of_mem _ hd)
    exact .cons (h d List.mem_cons_self) hrest

theorem object_stays {es : List Slot} (h : ∀ e ∈ es, e.draft.Stays) : (object es).Stays := by
  refine ⟨_, rfl, ?_⟩
  generalize es.map Slot.name = declared
  induction es with
  | nil => exact .nil
  | cons e es ih =>
    have hrest := ih fun e he => h e (List.mem_cons_of_mem _ he)
    exact .keep (h e List.mem_cons_self) hrest

end Draft

theorem Span.draft_stays (s : Span) : s.draft.Stays := by
  refine Draft.object_stays fun e he => ?_
  obtain ⟨p, -, rfl⟩ := List.mem_map.mp he
  exact Draft.exact_stays _

theorem Leaf.draft_stays (l : Leaf) : l.draft.Stays :=
  Draft.object_stays (List.forall_mem_cons.mpr ⟨l.span.draft_stays, List.forall_mem_cons.mpr
    ⟨Draft.exact_stays _, List.forall_mem_singleton.mpr (Draft.exact_stays _)⟩⟩)

theorem Field.draft_stays {f : Field Node} (h : ∀ e ∈ f.elements, e.draft.Stays) :
    (f.map Node.draft).draft.Stays := by
  cases f with
  | child c =>
    cases c with
    | none => exact Draft.exact_stays _
    | some e => exact h e (List.mem_singleton_self e)
  | children cs =>
    cases cs with
    | none => exact Draft.exact_stays _
    | some es => exact Draft.array_stays (List.forall_mem_map.mpr h)
  | text t => cases t <;> exact Draft.exact_stays _
  | _ => exact Draft.exact_stays _

/-- The stored form of an element is one of the values that its draft may become. -/
theorem Node.draft_stays (n : Node) : n.draft.Stays := by
  induction n using elements_induction with
  | _ n ih =>
    have hfields : ∀ e ∈ n.kind.fieldSlots (n.shape.fields.map (Field.map draft)),
        e.draft.Stays := by
      unfold Kind.fieldSlots
      rw [List.zip_map_right, List.map_map]
      refine List.forall_mem_map.mpr fun p hp => ?_
      exact Field.draft_stays fun e he =>
        ih e (List.mem_flatMap.mpr ⟨p.2, (List.of_mem_zip hp).2, he⟩)
    have hkind : n.kind.slot.draft.Stays := Draft.exact_stays _
    have hsigns : (Leaf.slot n.tokens).draft.Stays :=
      Draft.array_stays (List.forall_mem_map.mpr fun l _ => l.draft_stays)
    rw [draft_eq]
    refine Draft.object_stays fun e he => ?_
    unfold slots slotsOf at he
    rcases List.mem_append.mp he with he | he
    · rcases List.mem_cons.mp he with rfl | he
      · exact n.span.draft_stays
      · split_ifs at he
        · cases he
        · rw [List.mem_singleton.mp he]
          exact hsigns
    · split_ifs at he
      · rcases List.mem_append.mp he with he | he
        · exact hfields e he
        · rw [List.mem_singleton.mp he]
          exact hkind
      · rcases List.mem_cons.mp he with rfl | he
        · exact hkind
        · exact hfields e he

theorem Node.draft_toJson (n : Node) : n.draft.Becomes 0 n.toJson := by
  rw [← n.draft_json]
  exact n.draft_stays

/-! ## Members by their names -/

namespace Draft

/-- The losses of an object, told apart by the names of its members. -/
structure Losses (es : List Slot) (lost : ℕ) (j : Json) (lostIn : String → ℕ) : Prop where
  /-- All losses are those in members. -/
  sum : lost = ((es.map Slot.name).map lostIn).sum
  /-- What each declared member has become. -/
  fate : ∀ e ∈ es, Fate e (lostIn e.name) (Stored.member? e.name j)

theorem member?_cons_self (s : String) (j : Json) (ms : List (Text × Json)) :
    Stored.member? s (.object ((Text.ofString s, j) :: ms)) = some j := by
  simp [Stored.member?, Json.member?]

theorem member?_cons_of_ne {s : String} {name : Text} (h : Text.ofString s ≠ name) (j : Json)
    (ms : List (Text × Json)) :
    Stored.member? s (.object ((name, j) :: ms)) = Stored.member? s (.object ms) := by
  simp [Stored.member?, Json.member?, Ne.symm h]

/-- A declared name that is not among those of the members is not found. -/
theorem Members.missing {declared : List String} {es : List Slot} {lost : ℕ}
    {ms : List (Text × Json)} (h : Members declared es lost ms) {s : String}
    (hs : s ∈ declared) (hes : s ∉ es.map Slot.name) : Stored.member? s (.object ms) = none := by
  induction h with
  | nil => rfl
  | added hname _ ih => rw [member?_cons_of_ne (hname s hs), ih hes]
  | present _ _ ih =>
    rw [List.map_cons, List.mem_cons, not_or] at hes
    rw [member?_cons_of_ne (fun heq => hes.1 (Text.ofString_injective heq)), ih hes.2]
  | absent _ _ ih =>
    rw [List.map_cons, List.mem_cons, not_or] at hes
    exact ih hes.2

/-- Losses in one more member. -/
theorem Losses.cons {e : Slot} {es : List Slot} {lost rest : ℕ} {j j' : Json}
    {lostIn : String → ℕ} (h : Losses es rest j lostIn) (he : e.name ∉ es.map Slot.name)
    (hfate : Fate e lost (Stored.member? e.name j'))
    (hrest : ∀ s ∈ es.map Slot.name, Stored.member? s j' = Stored.member? s j) :
    Losses (e :: es) (lost + rest) j' (Function.update lostIn e.name lost) := by
  have hother : ∀ s ∈ es.map Slot.name, Function.update lostIn e.name lost s = lostIn s := by
    intro s hs
    have hne : s ≠ e.name := fun heq => he (heq ▸ hs)
    exact Function.update_of_ne hne _ _
  constructor
  · rw [List.map_cons, List.map_cons, List.sum_cons, Function.update_self,
      List.map_congr_left hother, h.sum]
  · refine List.forall_mem_cons.mpr ⟨?_, fun e' he' => ?_⟩
    · rwa [Function.update_self]
    · have hname := List.mem_map_of_mem (f := Slot.name) he'
      rw [hother e'.name hname, hrest e'.name hname]
      exact h.fate e' he'

/-- Each declared member is found as what it has become: others before it have other names. -/
theorem Members.losses {declared : List String} {es : List Slot} {lost : ℕ}
    {ms : List (Text × Json)} (h : Members declared es lost ms)
    (hes : es.map Slot.name ⊆ declared) (hnames : (es.map Slot.name).Nodup) :
    ∃ lostIn, Losses es lost (.object ms) lostIn := by
  induction h with
  | nil => exact ⟨fun _ => 0, rfl, List.forall_mem_nil _⟩
  | added hname _ ih =>
    obtain ⟨lostIn, hsum, hfate⟩ := ih hes hnames
    refine ⟨lostIn, hsum, fun e he => ?_⟩
    rw [member?_cons_of_ne (hname _ (hes (List.mem_map_of_mem he)))]
    exact hfate e he
  | @present e es _ _ _ _ hfate _ ih =>
    rw [List.map_cons] at hes hnames
    obtain ⟨he, hnames⟩ := List.nodup_cons.mp hnames
    obtain ⟨lostIn, h⟩ := ih (List.subset_of_cons_subset hes) hnames
    refine ⟨_, h.cons he (by rwa [member?_cons_self]) fun s hs => ?_⟩
    have hne : s ≠ e.name := fun heq => he (heq ▸ hs)
    exact member?_cons_of_ne (fun heq => hne (Text.ofString_injective heq)) _ _
  | absent hfate hrest ih =>
    rw [List.map_cons] at hes hnames
    obtain ⟨he, hnames⟩ := List.nodup_cons.mp hnames
    obtain ⟨lostIn, h⟩ := ih (List.subset_of_cons_subset hes) hnames
    refine ⟨_, h.cons he ?_ fun s _ => rfl⟩
    rwa [hrest.missing (hes List.mem_cons_self) he]

/-- What an object has become is an object, and each of its declared members has become something
by itself. -/
theorem object_losses {es : List Slot} {lost : ℕ} {j : Json} (h : (object es).Becomes lost j)
    (hnames : (es.map Slot.name).Nodup) :
    (∃ ms, j = .object ms) ∧ ∃ lostIn, Losses es lost j lostIn := by
  obtain ⟨ms, rfl, hms⟩ := h
  exact ⟨⟨ms, rfl⟩, hms.losses (List.Subset.refl _) hnames⟩

end Draft

end ManifestTree
