import ManifestTree.Proofs.Drafts

/-!
# Drafts read back

Whatever the stored form of a well-typed element has become, it reads back as the element if nothing
was lost, and as nothing if something was.  Reading finds each declared member by its name or takes
the default, so by induction over the tree every field is read as it was, unless there is a loss in
it; and one part that cannot be read leaves the whole unread.
-/

namespace ManifestTree

open Draft

/-! ## Depths -/

theorem Json.depth_items {js : List Json} {j : Json} (h : j ∈ js) :
    j.depth < (Json.array js).depth := by
  rw [Json.depth, Nat.lt_succ_iff]
  induction js with
  | nil => exact absurd h List.not_mem_nil
  | cons k js ih =>
    rw [Json.depthItems]
    rcases List.mem_cons.mp h with rfl | hmem
    · exact Nat.le_max_left _ _
    · exact (ih hmem).trans (Nat.le_max_right _ _)

/-- A member is not as deep as its object. -/
theorem Json.depth_member {ms : List (Text × Json)} {name : String} {j : Json}
    (h : Stored.member? name (.object ms) = some j) : j.depth < (Json.object ms).depth := by
  obtain ⟨m, hm, rfl⟩ := Option.map_eq_some_iff.mp h
  have hmem := List.mem_of_find?_eq_some hm
  rw [Json.depth, Nat.lt_succ_iff]
  clear h hm
  induction ms with
  | nil => exact absurd hmem List.not_mem_nil
  | cons k ms ih =>
    rw [Json.depthMembers]
    rcases List.mem_cons.mp hmem with rfl | hmem
    · exact Nat.le_max_left _ _
    · exact (ih hmem).trans (Nat.le_max_right _ _)

namespace Stored

/-! ## Words -/

/-- A word is found among the words of its type. -/
theorem word?_str {words : List String} {w : String} (h : w ∈ words) :
    word? words (Json.str w) = some w := by
  show words.find? (fun v => Text.ofString v = Text.ofString w) = some w
  induction words with
  | nil => exact absurd h List.not_mem_nil
  | cons v words ih =>
    rw [List.find?_cons]
    by_cases hv : v = w
    · rw [hv, decide_eq_true rfl]
    · have hne : Text.ofString v ≠ Text.ofString w := fun heq => hv (Text.ofString_injective heq)
      rw [decide_eq_false hne]
      exact ih ((List.mem_cons.mp h).resolve_left (Ne.symm hv))

theorem fitsKind_of_member {k : Kind} {j : Json}
    (h : member? "kind" j = some (Json.str k.word)) : fitsKind k j = true := by
  unfold fitsKind
  rw [h]
  dsimp only
  rw [word?_str (List.mem_singleton_self _)]
  rfl

/-- A place reads a value as the kind that it names, if it accepts that kind. -/
theorem kindIn?_of_member {place : Place} {k : Kind} {j : Json}
    (hkind : member? "kind" j = some (Json.str k.word)) (hplace : k ∈ place.kinds) :
    kindIn? place j = some k := by
  have hfind : place.kinds.find? (fun l => Text.ofString l.word = Text.ofString k.word)
      = some k := by
    generalize place.kinds = kinds at hplace
    induction kinds with
    | nil => exact absurd hplace List.not_mem_nil
    | cons l kinds ih =>
      rw [List.find?_cons]
      by_cases hl : l = k
      · rw [hl, decide_eq_true rfl]
      · have hne : Text.ofString l.word ≠ Text.ofString k.word := fun heq =>
          hl (Kind.word_injective (Text.ofString_injective heq))
        rw [decide_eq_false hne]
        exact ih ((List.mem_cons.mp hplace).resolve_left (Ne.symm hl))
  by_cases honly : ∃ l, place = .only l
  · obtain ⟨l, rfl⟩ := honly
    obtain rfl : k = l := List.mem_singleton.mp hplace
    unfold kindIn?
    dsimp only
    rw [fitsKind_of_member hkind]
    rfl
  · unfold kindIn?
    split
    · rename_i l
      exact absurd ⟨l, rfl⟩ honly
    · rw [hkind]
      exact hfind

/-! ## Readings with losses -/

def unlessLost {α : Type} (lost : ℕ) (a : α) : Option α := if lost = 0 then some a else none

theorem unlessLost_bind {α β : Type} {lost rest : ℕ} {a : α} {b : β} {f : α → Option β}
    (h : f a = unlessLost rest b) : (unlessLost lost a).bind f = unlessLost (lost + rest) b := by
  cases lost with
  | zero => rw [Nat.zero_add]; exact h
  | succ lost => rw [Nat.add_right_comm]; rfl

theorem unlessLost_bind_some {α β : Type} (lost : ℕ) (a : α) (g : α → β) :
    ((unlessLost lost a).bind fun x => some (g x)) = unlessLost lost (g a) := by
  cases lost <;> rfl

theorem unlessLost_map {α β : Type} (lost : ℕ) (a : α) (g : α → β) :
    (unlessLost lost a).map g = unlessLost lost (g a) := by
  cases lost <;> rfl

/-- The items of an array read back if each of them does. -/
theorem mapM_items {α : Type} {draft : α → Draft} {read : Json → Option α} {as : List α}
    {lost : ℕ} {js : List Json} (h : Items (as.map draft) lost js)
    (hread : ∀ a ∈ as, ∀ k, ∀ j ∈ js, (draft a).Becomes k j → read j = unlessLost k a) :
    js.mapM read = unlessLost lost as := by
  induction as generalizing lost js with
  | nil =>
    cases h
    rfl
  | cons a as ih =>
    rw [List.map_cons] at h
    cases h with
    | cons hfirst hrest =>
      have has := ih hrest fun b hb k j hj =>
        hread b (List.mem_cons_of_mem a hb) k j (List.mem_cons_of_mem _ hj)
      rw [List.mapM_cons, hread a List.mem_cons_self _ _ List.mem_cons_self hfirst]
      exact unlessLost_bind (by rw [has]; exact unlessLost_bind_some _ as (a :: ·))

/-- Readings of several fields, each with its losses. -/
theorem mapM_forall₂ {α β : Type} {read : α → Option β} {lostIn : α → ℕ} {xs : List α}
    {ys : List β} (h : List.Forall₂ (fun x y => read x = unlessLost (lostIn x) y) xs ys) :
    xs.mapM read = unlessLost (xs.map lostIn).sum ys := by
  induction h with
  | nil => rfl
  | @cons x y xs ys hxy _ ih =>
    rw [List.mapM_cons, hxy, List.map_cons, List.sum_cons]
    exact unlessLost_bind (by rw [ih]; exact unlessLost_bind_some _ ys (y :: ·))

/-! ## Members -/

/-- A member that has no default reads back if its value does. -/
theorem bind_fate {α : Type} {e : Slot} {lost : ℕ} {v : Option Json} (h : Fate e lost v)
    (hdefault : e.default? = none) {read : Json → Option α} {a : α}
    (hread : ∀ {k j}, e.draft.Becomes k j → read j = unlessLost k a) :
    v.bind read = unlessLost lost a := by
  cases h with
  | kept h => exact hread h
  | omitted h => simp [hdefault] at h
  | deleted => rfl

/-- The kind of an element stays as it is. -/
theorem fate_kind {k : Kind} {lost : ℕ} {v : Option Json} (h : Fate k.slot lost v) :
    lost = 0 ∧ v = some (Json.str k.word) := by
  cases h with
  | kept h => exact ⟨h.1, congrArg some h.2⟩
  | omitted h => cases h
  | deleted h => cases h

theorem span?_draft {s : Span} {lost : ℕ} {j : Json} (h : s.draft.Becomes lost j) :
    span? j = unlessLost lost s := by
  obtain ⟨-, lostIn, hlosses⟩ :=
    object_losses h (show ["start", "end", "line", "column"].Nodup by decide)
  have hread : ∀ name i, (name, i) ∈ [("start", s.start), ("end", s.stop), ("line", s.line),
      ("column", s.column)] → (member? name j).bind integer? = unlessLost (lostIn name) i := by
    intro name i hmem
    refine bind_fate (hlosses.fate _ (List.mem_map_of_mem hmem)) rfl ?_
    rintro k j ⟨rfl, rfl⟩
    rfl
  have hstart := hread "start" s.start (by simp)
  have hstop := hread "end" s.stop (by simp)
  have hline := hread "line" s.line (by simp)
  have hcolumn := hread "column" s.column (by simp)
  unfold span?
  simp only [Option.bind_eq_bind, hstart, hstop, hline, hcolumn]
  rw [hlosses.sum]
  exact unlessLost_bind (unlessLost_bind (unlessLost_bind (unlessLost_bind rfl)))

theorem leaf?_draft {l : Leaf} {lost : ℕ} {j : Json} (h : l.draft.Becomes lost j) :
    leaf? j = unlessLost lost l := by
  obtain ⟨-, lostIn, hlosses⟩ := object_losses h (show ["span", "kind", "text"].Nodup by decide)
  have hspan : (member? "span" j).bind span? = unlessLost (lostIn "span") l.span :=
    bind_fate (hlosses.fate l.span.slot (by simp)) rfl span?_draft
  obtain ⟨hkind, hword⟩ := fate_kind (hlosses.fate Kind.token.slot (by simp))
  have htext : (member? "text" j).bind text? = unlessLost (lostIn "text") l.text := by
    refine bind_fate (hlosses.fate { name := "text", draft := .exact (.string l.text) } (by simp))
      rfl ?_
    rintro k j ⟨rfl, rfl⟩
    rfl
  have hleaf : leaf? j = ((member? "span" j).bind span?).bind fun span =>
      ((member? "text" j).bind text?).bind fun text => some (Leaf.mk span text) := by
    unfold leaf?
    rw [fitsKind_of_member hword]
    simp only [Option.bind_eq_bind, Option.bind_assoc]
    rfl
  have hsum : lost = lostIn "span" + (lostIn "kind" + (lostIn "text" + 0)) := hlosses.sum
  rw [hleaf, hspan, htext, hsum, show lostIn "kind" = 0 from hkind, Nat.zero_add]
  exact unlessLost_bind (unlessLost_bind_some _ _ _)

theorem leaves?_fate {k : Kind} (hk : k.isLeaf = false) {ls : List Leaf} {lost : ℕ} {j : Json}
    (h : Fate (Leaf.slot ls) lost (member? "tokens" j)) :
    leaves? k j = unlessLost lost ls := by
  unfold leaves?
  rw [hk, if_neg Bool.false_ne_true]
  generalize member? "tokens" j = v at h
  cases h with
  | kept h =>
    obtain ⟨js, rfl, hitems⟩ := h
    exact mapM_items hitems fun l _ _ _ _ => leaf?_draft
  | omitted h =>
    rw [Leaf.slot_json] at h
    have hnone : ls = [] := by simpa [Leaf.slot, eq_comm] using h
    rw [hnone]
    rfl
  | deleted h => cases h

/-! ## Fields -/

theorem Node.becomes_object {n : Node} {lost : ℕ} {j : Json} (h : n.draft.Becomes lost j) :
    ∃ ms, j = .object ms := by
  rw [Node.draft_eq] at h
  obtain ⟨ms, rfl, -⟩ := h
  exact ⟨ms, rfl⟩

theorem mapM_text? (ts : List Text) : (ts.map Json.string).mapM text? = some ts := by
  induction ts with
  | nil => rfl
  | cons t ts ih =>
    rw [List.map_cons, List.mapM_cons, ih]
    rfl

section Fields

variable {node : Place → Json → Option Node}

theorem field?_draft {type : FieldType} {f : Field Node} (hf : type.Accepts f) {lost : ℕ} {j : Json}
    (h : (f.map Node.draft).draft.Becomes lost j)
    (helements : ∀ e ∈ f.elements, ∀ place : Place, e.kind ∈ place.kinds → ∀ k i,
      i.depth ≤ j.depth → e.draft.Becomes k i → node place i = unlessLost k e) :
    field? node type j = unlessLost lost f := by
  cases type with
  | integer =>
    match f, hf with
    | .integer _, _ => obtain ⟨rfl, rfl⟩ := h; rfl
  | real =>
    match f, hf with
    | .real _, _ => obtain ⟨rfl, rfl⟩ := h; rfl
  | flag =>
    match f, hf with
    | .flag _, _ => obtain ⟨rfl, rfl⟩ := h; rfl
  | text =>
    match f, hf with
    | .text (some _), _ => obtain ⟨rfl, rfl⟩ := h; rfl
  | optionalText =>
    match f, hf with
    | .text none, _ => obtain ⟨rfl, rfl⟩ := h; rfl
    | .text (some _), _ => obtain ⟨rfl, rfl⟩ := h; rfl
  | texts =>
    match f, hf with
    | .texts ts, _ =>
      obtain ⟨rfl, rfl⟩ := h
      show ((ts.map Json.string).mapM text?).map Field.texts = _
      rw [mapM_text?]
      rfl
  | word words =>
    match f, hf with
    | .word w, hf =>
      obtain ⟨rfl, rfl⟩ := h
      show (word? words (Json.str w)).map Field.word = _
      rw [word?_str hf]
      rfl
  | child place =>
    match f, hf with
    | .child (some n), hf =>
      have hn := helements n (List.mem_singleton_self n) place hf lost j (Nat.le_refl _) h
      show (node place j).map _ = _
      rw [hn, unlessLost_map]
  | optionalChild place =>
    match f, hf with
    | .child none, _ => obtain ⟨rfl, rfl⟩ := h; rfl
    | .child (some n), hf =>
      obtain ⟨ms, rfl⟩ := Node.becomes_object h
      have hn := helements n (List.mem_singleton_self n) place (hf n rfl) lost _ (Nat.le_refl _) h
      show ((node place (.object ms)).map some).map Field.child = _
      rw [hn, unlessLost_map, unlessLost_map]
  | children place =>
    match f, hf with
    | .children (some ns), hf =>
      obtain ⟨js, rfl, hitems⟩ := h
      have hns : js.mapM (node place) = unlessLost lost ns := mapM_items hitems fun n hn k i hi =>
        helements n hn place (hf n hn) k i (Json.depth_items hi).le
      show (js.mapM (node place)).map _ = _
      rw [hns, unlessLost_map]
  | optionalChildren place =>
    match f, hf with
    | .children none, _ => obtain ⟨rfl, rfl⟩ := h; rfl
    | .children (some ns), hf =>
      obtain ⟨js, rfl, hitems⟩ := h
      have hns : js.mapM (node place) = unlessLost lost ns := mapM_items hitems fun n hn k i hi =>
        helements n hn place (hf ns rfl n hn) k i (Json.depth_items hi).le
      show ((js.mapM (node place)).map some).map Field.children = _
      rw [hns, unlessLost_map, unlessLost_map]

/-- A default is a value of the type of its field. -/
def suits : Omission → FieldType → Bool
  | .required, _ => true
  | .absent, .optionalText | .absent, .optionalChild _ | .absent, .optionalChildren _ => true
  | .emptyList, .children _ => true
  | .no, .flag => true
  | .word w, .word words => words.contains w
  | _, _ => false

theorem schema_suits (k : Kind) {d : FieldDecl} (hd : d ∈ k.schema) :
    suits d.omission d.type = true := by
  have h : ∀ k ∈ Kind.all, ∀ d ∈ k.schema, suits d.omission d.type = true := by decide +kernel
  exact h k (Kind.mem_all k) d hd

/-- What stands for a field that is left out is what it held, if that was the default. -/
theorem omitted?_default {omission : Omission} {type : FieldType} {f : Field Node}
    (hsuits : suits omission type = true) (hf : type.Accepts f)
    (h : omission.default? = some (f.map Node.toJson).toJson) :
    ((omitted? omission).bind fun g => g type) = some f := by
  cases omission with
  | required => cases h
  | absent =>
    cases type with
    | optionalText =>
      match f, hf with
      | .text none, _ => rfl
      | .text (some t), _ => cases h
    | optionalChild place =>
      match f, hf with
      | .child none, _ => rfl
      | .child (some n), _ =>
        have hnull : some Json.null = some n.toJson := h
        rw [Node.toJson_eq] at hnull
        cases hnull
    | optionalChildren place =>
      match f, hf with
      | .children none, _ => rfl
      | .children (some ns), _ => cases h
    | _ => exact absurd hsuits Bool.false_ne_true
  | emptyList =>
    cases type with
    | children place =>
      match f, hf with
      | .children (some ns), _ =>
        have hnone : ns.map Node.toJson = [] := (Json.array.inj (Option.some.inj h)).symm
        rw [List.map_eq_nil_iff.mp hnone]
        rfl
    | _ => exact absurd hsuits Bool.false_ne_true
  | no =>
    cases type with
    | flag =>
      match f, hf with
      | .flag b, _ =>
        rw [← Json.bool.inj (Option.some.inj h)]
        rfl
    | _ => exact absurd hsuits Bool.false_ne_true
  | word w =>
    cases type with
    | word words =>
      match f, hf with
      | .word v, _ =>
        rw [← Text.ofString_injective (Json.string.inj (Option.some.inj h))]
        rfl
    | _ => exact absurd hsuits Bool.false_ne_true

/-- A declared field reads back, from its value or from its default. -/
theorem declared?_draft {d : FieldDecl} {f : Field Node} (hsuits : suits d.omission d.type = true)
    (hf : d.type.Accepts f) {lost : ℕ} {ms : List (Text × Json)}
    (h : Fate (d.slot (f.map Node.draft)) lost (member? d.name (.object ms)))
    (helements : ∀ e ∈ f.elements, ∀ place : Place, e.kind ∈ place.kinds → ∀ k i,
      i.depth < (Json.object ms).depth → e.draft.Becomes k i → node place i = unlessLost k e) :
    declared? node (.object ms) d = unlessLost lost f := by
  unfold declared?
  cases hmember : member? d.name (.object ms) with
  | some j =>
    rw [hmember] at h
    cases h with
    | kept h =>
      exact field?_draft hf h fun e he place hplace k i hi =>
        helements e he place hplace k i (hi.trans_lt (Json.depth_member hmember))
  | none =>
    rw [hmember] at h
    cases h with
    | omitted h =>
      have hjson := Field.draft_json (f := f) fun e _ => e.draft_json
      exact omitted?_default hsuits hf (h.trans (congrArg some hjson))
    | deleted h => cases h

theorem fields?_draft {n : Node} (hn : n.Declared) {lostIn : String → ℕ} {ms : List (Text × Json)}
    (hfates : ∀ p ∈ n.kind.schema.zip n.shape.fields,
      Fate (p.1.slot (p.2.map Node.draft)) (lostIn p.1.name) (member? p.1.name (.object ms)))
    (helements : ∀ e ∈ n.shape.elements, ∀ place : Place, e.kind ∈ place.kinds → ∀ k i,
      i.depth < (Json.object ms).depth → e.draft.Becomes k i → node place i = unlessLost k e) :
    n.kind.schema.mapM (declared? node (.object ms)) =
      unlessLost (n.kind.schema.map fun d => lostIn d.name).sum n.shape.fields := by
  obtain ⟨hlength, haccepts⟩ := List.forall₂_iff_zip.mp hn.fields
  refine mapM_forall₂ (List.forall₂_iff_zip.mpr ⟨hlength, ?_⟩)
  intro d f hmem
  obtain ⟨hd, hf⟩ := List.of_mem_zip hmem
  refine declared?_draft (schema_suits n.kind hd) (haccepts hmem) (hfates (d, f) hmem) ?_
  exact fun e he => helements e (List.mem_flatMap.mpr ⟨f, hf, he⟩)

end Fields

/-! ## Elements -/

theorem mem_slots_span (n : Node) : n.span.slot ∈ n.slots := List.mem_cons_self

theorem mem_slots_tokens {n : Node} (h : n.kind.isLeaf = false) :
    Leaf.slot n.tokens ∈ n.slots := by
  unfold Node.slots Node.slotsOf
  rw [h]
  exact List.mem_append_left _ (List.mem_cons_of_mem _ (List.mem_singleton_self _))

theorem mem_slots_kind (n : Node) : n.kind.slot ∈ n.slots := by
  apply List.mem_append_right
  split_ifs
  · exact List.mem_append_right _ (List.mem_singleton_self _)
  · exact List.mem_cons_self

theorem mem_slots_field {n : Node} {p : FieldDecl × Field Node}
    (h : p ∈ n.kind.schema.zip n.shape.fields) : p.1.slot (p.2.map Node.draft) ∈ n.slots := by
  have hfield : p.1.slot (p.2.map Node.draft) ∈
      n.kind.fieldSlots (n.shape.fields.map (Field.map Node.draft)) := by
    unfold Kind.fieldSlots
    rw [List.zip_map_right, List.map_map]
    exact List.mem_map_of_mem h
  apply List.mem_append_right
  split_ifs
  · exact List.mem_append_left _ hfield
  · exact List.mem_cons_of_mem _ hfield

/-- What an element loses it loses in its span, its signs and its fields. -/
theorem sum_memberNames (k : Kind) {lostIn : String → ℕ} (h : lostIn "kind" = 0) :
    (k.memberNames.map lostIn).sum = lostIn "span" +
      ((if k.isLeaf then 0 else lostIn "tokens") + (k.schema.map fun d => lostIn d.name).sum) := by
  unfold Kind.memberNames
  split_ifs <;> simp [h, Function.comp_def]

theorem node?_object (fuel : ℕ) (place : Place) (ms : List (Text × Json)) :
    node? (fuel + 1) place (.object ms) = (kindIn? place (.object ms)).bind fun k =>
      ((member? "span" (.object ms)).bind span?).bind fun span =>
      (leaves? k (.object ms)).bind fun leaves =>
      (k.schema.mapM (declared? (node? fuel) (.object ms))).bind fun fields =>
      (Shape.ofFields? k fields).bind fun shape => some (Node.mk span leaves shape) := by
  rw [node?]
  simp only [Option.bind_eq_bind, Option.bind_assoc]
  rfl

/-- What the stored form of a well-typed tree has become reads back as the tree, in every place
that accepts it, unless something is lost. -/
theorem node?_draft (n : Node) : n.WellTyped → ∀ {fuel lost : ℕ} {j : Json},
    n.draft.Becomes lost j → j.depth < fuel → ∀ {place : Place}, n.kind ∈ place.kinds →
      node? fuel place j = unlessLost lost n := by
  -- The losses of an element are those of its members, and each member accounts for its own: the
  -- fields by the induction, the kind for none.
  induction n using Node.elements_induction with
  | _ n ih =>
    intro hn fuel lost j hj hfuel place hplace
    obtain ⟨fuel, rfl⟩ : ∃ k, fuel = k + 1 := ⟨fuel - 1, by omega⟩
    rw [Node.draft_eq] at hj
    have hnames := Node.slots_names hn.self
    obtain ⟨⟨ms, rfl⟩, lostIn, hlosses⟩ :=
      object_losses hj (by rw [hnames]; exact Kind.memberNames_nodup n.kind)
    obtain ⟨hkind, hword⟩ := fate_kind (hlosses.fate _ (mem_slots_kind n))
    have hspan : (member? "span" (.object ms)).bind span? = unlessLost (lostIn "span") n.span :=
      bind_fate (hlosses.fate _ (mem_slots_span n)) rfl span?_draft
    have hleaves : leaves? n.kind (.object ms) =
        unlessLost (if n.kind.isLeaf then 0 else lostIn "tokens") n.tokens := by
      cases hleaf : n.kind.isLeaf with
      | true =>
        rw [hn.self.tokens hleaf, leaves?, hleaf]
        rfl
      | false => exact leaves?_fate hleaf (hlosses.fate _ (mem_slots_tokens hleaf))
    have hfields : n.kind.schema.mapM (declared? (node? fuel) (.object ms)) =
        unlessLost (n.kind.schema.map fun d => lostIn d.name).sum n.shape.fields :=
      fields?_draft hn.self (fun p hp => hlosses.fate _ (mem_slots_field hp))
        fun e he place hplace k i hi hbecomes =>
          ih e he (hn.element he) hbecomes (by omega) hplace
    have hshape (lost : ℕ) : ((unlessLost lost n.shape.fields).bind fun fields =>
        (Shape.ofFields? n.kind fields).bind fun shape => some (.mk n.span n.tokens shape)) =
        unlessLost (lost + 0) n := by
      apply unlessLost_bind
      rw [show Shape.ofFields? n.kind n.shape.fields = some n.shape from
        Shape.ofFields?_fields n.shape]
      cases n
      rfl
    rw [node?_object, kindIn?_of_member hword hplace, Option.bind_some, hspan, hleaves,
      hlosses.sum, hnames, sum_memberNames n.kind hkind]
    refine unlessLost_bind (unlessLost_bind ?_)
    rw [hfields]
    exact hshape _

end Stored

/-- What the stored form of a well-typed tree has become, read back. -/
theorem Node.ofJson?_draft {n : Node} (hn : n.WellTyped) {lost : ℕ} {j : Json}
    (h : n.draft.Becomes lost j) {place : Place} (hplace : n.kind ∈ place.kinds) :
    Node.ofJson? place j = Stored.unlessLost lost n :=
  Stored.node?_draft n hn h (Nat.lt_succ_self _) hplace

/-- A well-typed tree reads back from its stored form. -/
theorem Node.ofJson?_toJson {n : Node} (hn : n.WellTyped) {place : Place}
    (hplace : n.kind ∈ place.kinds) : Node.ofJson? place n.toJson = some n :=
  Node.ofJson?_draft hn n.draft_toJson hplace

end ManifestTree
