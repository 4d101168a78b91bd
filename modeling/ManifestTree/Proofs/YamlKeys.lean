import ManifestTree.Yaml.Reader
import Mathlib

/-!
# Keys of mappings

In a document that is read, the keys of mappings are values without parts, so a mapping has an entry
for each of its keys.  Values come to be step by step: a value without parts never changes, and only
a value that waits for its parts is set a second time.  `Keeps` says what a part of the search for
values keeps, and what holds after it.
-/

namespace ManifestTree.Yaml

theorem Value.eq_atom_of_atom? {v : Value} {a : Atom} (h : v.atom? = some a) : v = .atom a := by
  cases v with
  | atom b =>
    cases h
    rfl
  | _ => cases h

/-! ## What is known -/

namespace Building

/-- The value of a node is known. -/
def Has (b : Building) (id : NodeId) (v : Value) : Prop := b.values[id]? = some (some v)

/-- A node is none of the document, or its value is known to have parts. -/
def Composite (b : Building) (id : NodeId) : Prop :=
  ∀ v, b.values[id]? = some v → ∃ w, v = some w ∧ w.atom? = none

/-- Values that wait have parts, and the keys of known mappings have values without parts. -/
structure Sound (b : Building) : Prop where
  waits : ∀ id ∈ b.waiting, b.Composite id
  keyed : ∀ {id pairs}, b.Has id (.mapping pairs) → ∀ p ∈ pairs, ∃ a, b.Has p.1 (.atom a)

/-- What is known of values stays known. -/
structure Grows (b b' : Building) : Prop where
  atoms : ∀ {id a}, b.Has id (.atom a) → b'.Has id (.atom a)
  composites : ∀ {id}, b.Composite id → b'.Composite id

variable {b b' b'' : Building} {id : NodeId} {v : Value}

theorem Grows.of_values (h : b'.values = b.values) : b.Grows b' where
  atoms ha := by
    unfold Has
    rw [h]
    exact ha
  composites hc v hv := hc v (h ▸ hv)

theorem Grows.refl (b : Building) : b.Grows b := .of_values rfl

theorem Grows.trans (h : b.Grows b') (k : b'.Grows b'') : b.Grows b'' :=
  ⟨fun ha => k.atoms (h.atoms ha), fun hc => k.composites (h.composites hc)⟩

/-- A building whose values are the same is as sound, if no other values wait. -/
theorem Sound.of_values (hs : b.Sound) (hv : b'.values = b.values) (hw : b'.waiting ⊆ b.waiting) :
    b'.Sound where
  waits id h := (Grows.of_values hv).composites (hs.waits id (hw h))
  keyed h p hp := by
    unfold Has at h ⊢
    rw [hv] at h ⊢
    exact hs.keyed h p hp

/-- The building with the value of a node set. -/
def set (b : Building) (id : NodeId) (v : Value) : Building :=
  { b with values := b.values.modify id fun _ => some v }

theorem has_set {id' : NodeId} {w : Value} (h : (b.set id v).Has id' w) :
    (id' = id ∧ w = v) ∨ (id' ≠ id ∧ b.Has id' w) := by
  unfold Has set at h
  by_cases he : id = id'
  · rw [Array.getElem?_modify, if_pos he, Option.map_eq_some_iff] at h
    obtain ⟨-, -, hw⟩ := h
    exact .inl ⟨he.symm, (Option.some.inj hw).symm⟩
  · rw [Array.getElem?_modify, if_neg he] at h
    exact .inr ⟨Ne.symm he, h⟩

/-- The value of a node is still open, or it has parts and gets others. -/
def Open (b : Building) (id : NodeId) (v : Value) : Prop :=
  b.values[id]?.join = none ∨ b.Composite id ∧ v.atom? = none

/-- Setting such a value loses nothing that is known. -/
theorem Open.grows (h : b.Open id v) : b.Grows (b.set id v) where
  atoms {id' a} ha := by
    have hne : id ≠ id' := by
      rintro rfl
      unfold Has at ha
      obtain h | ⟨h, -⟩ := h
      · rw [ha] at h
        cases h
      · obtain ⟨w, hw, hp⟩ := h _ ha
        cases hw
        cases hp
    unfold Has set
    rwa [Array.getElem?_modify, if_neg hne]
  composites {id'} hc w hw := by
    unfold set at hw
    by_cases he : id = id'
    · subst he
      rw [Array.getElem?_modify, if_pos rfl, Option.map_eq_some_iff] at hw
      obtain ⟨u, hu, rfl⟩ := hw
      obtain h | ⟨-, h⟩ := h
      · obtain ⟨w, rfl, -⟩ := hc u hu
        rw [hu] at h
        cases h
      · exact ⟨v, rfl, h⟩
    · rw [Array.getElem?_modify, if_neg he] at hw
      exact hc w hw

/-- A node that gets a value with parts has one. -/
theorem composite_set (hv : v.atom? = none) : (b.set id v).Composite id := by
  intro w hw
  unfold set at hw
  rw [Array.getElem?_modify, if_pos rfl, Option.map_eq_some_iff] at hw
  obtain ⟨-, -, rfl⟩ := hw
  exact ⟨v, rfl, hv⟩

/-- It keeps a building sound, if the keys of a mapping that is set have values without parts. -/
theorem Sound.set (hs : b.Sound) (ho : b.Open id v)
    (hkeys : ∀ pairs, v = .mapping pairs → ∀ p ∈ pairs, ∃ a, b.Has p.1 (.atom a)) :
    (b.set id v).Sound where
  waits id' h := ho.grows.composites (hs.waits id' h)
  keyed h p hp := by
    obtain ⟨-, hv⟩ | ⟨-, h⟩ := has_set h
    · exact (hkeys _ hv.symm p hp).imp fun a => ho.grows.atoms
    · exact (hs.keyed h p hp).imp fun a => ho.grows.atoms

end Building

/-! ## What a search keeps -/

section

variable {α β : Type} {P : Building → Prop} {Q : α → Building → Prop} {R : β → Building → Prop}

/-- The search changes nothing but nodes. -/
def Builder.Quiet (m : Builder α) : Prop :=
  ∀ b r b', m.run b = .ok (r, b') → b'.values = b.values ∧ b'.waiting = b.waiting

/-- From a sound state in which `P` holds, the search leads to a sound state that knows as much, and
`Q` holds there of the answer. -/
def Builder.Keeps (P : Building → Prop) (m : Builder α) (Q : α → Building → Prop) : Prop :=
  ∀ b r b', m.run b = .ok (r, b') → b.Sound → P b → b'.Sound ∧ b.Grows b' ∧ Q r b'

namespace Builder

theorem run_bind_ok {x : Builder α} {f : α → Builder β} {b b' : Building} {r : β}
    (h : (x >>= f).run b = .ok (r, b')) :
    ∃ a b₁, x.run b = .ok (a, b₁) ∧ (f a).run b₁ = .ok (r, b') := by
  rw [StateT.run_bind] at h
  cases hx : x.run b with
  | error e =>
    rw [hx] at h
    cases h
  | ok p =>
    rw [hx] at h
    exact ⟨p.1, p.2, rfl, h⟩

theorem Quiet.pure (a : α) : Quiet (Pure.pure a : Builder α) := by
  intro b r b' h
  cases h
  exact ⟨rfl, rfl⟩

theorem Quiet.bind {x : Builder α} {f : α → Builder β} (hx : Quiet x) (hf : ∀ a, Quiet (f a)) :
    Quiet (x >>= f) := by
  intro b r b' h
  obtain ⟨a, b₁, hx₁, hf₁⟩ := run_bind_ok h
  obtain ⟨hv, hw⟩ := hx _ _ _ hx₁
  obtain ⟨hv', hw'⟩ := hf a _ _ _ hf₁
  exact ⟨hv'.trans hv, hw'.trans hw⟩

theorem Quiet.throw (f : Fault) : Quiet (MonadExcept.throw f : Builder α) := by
  intro b r b' h
  cases h

theorem Quiet.mapM {f : α → Builder β} (hf : ∀ a, Quiet (f a)) (xs : List α) :
    Quiet (xs.mapM f) := by
  induction xs with
  | nil => exact .pure _
  | cons x xs ih =>
    rw [List.mapM_cons]
    exact (hf x).bind fun _ => ih.bind fun _ => .pure _

theorem Quiet.forM {f : α → Builder PUnit} (hf : ∀ a, Quiet (f a)) (xs : List α) :
    Quiet (xs.forM f) := by
  induction xs with
  | nil => exact .pure _
  | cons x xs ih => exact (hf x).bind fun _ => ih

theorem Keeps.pure {a : α} (h : ∀ b, P b → Q a b) : Keeps P (Pure.pure a : Builder α) Q := by
  intro b r b' hr hs hp
  cases hr
  exact ⟨hs, .refl b, h b hp⟩

theorem Keeps.mono {m : Builder α} {P' : Building → Prop} (hm : Keeps P' m Q)
    (h : ∀ b, P b → P' b) : Keeps P m Q :=
  fun b r b' hr hs hp => hm b r b' hr hs (h b hp)

theorem Keeps.refuse : Keeps P (refuse : Builder α) Q := by
  intro b r b' h
  cases h

theorem Keeps.bind {x : Builder α} {f : α → Builder β} (hx : Keeps P x Q)
    (hf : ∀ a, Keeps (Q a) (f a) R) : Keeps P (x >>= f) R := by
  intro b r b' h hs hp
  obtain ⟨a, b₁, hx₁, hf₁⟩ := run_bind_ok h
  obtain ⟨hs₁, hg₁, hq⟩ := hx _ _ _ hx₁ hs hp
  obtain ⟨hs₂, hg₂, hr⟩ := hf a _ _ _ hf₁ hs₁ hq
  exact ⟨hs₂, hg₁.trans hg₂, hr⟩

/-- What is known stays so, and the property with it. -/
def Stable (P : Building → Prop) : Prop := ∀ {b b'}, b.Grows b' → P b → P b'

theorem Quiet.keeps {m : Builder α} (hm : Quiet m)
    (hP : ∀ {b b' : Building}, b'.values = b.values → P b → P b') : Keeps P m fun _ => P := by
  intro b r b' h hs hp
  obtain ⟨hv, hw⟩ := hm _ _ _ h
  exact ⟨hs.of_values hv (hw ▸ List.Subset.refl _), .of_values hv, hP hv hp⟩

/-- What holds before and stays so holds after. -/
theorem Keeps.frame {m : Builder α} (hm : Keeps P m Q) (hP : Stable P) :
    Keeps P m fun a b => Q a b ∧ P b := by
  intro b r b' h hs hp
  obtain ⟨hs', hg, hq⟩ := hm _ _ _ h hs hp
  exact ⟨hs', hg, hq, hP hg hp⟩

theorem Keeps.forM {f : α → Builder PUnit} (hP : Stable P) {xs : List α}
    (hf : ∀ a ∈ xs, Keeps P (f a) fun _ _ => True) : Keeps P (xs.forM f) fun _ _ => True := by
  induction xs with
  | nil => exact .pure fun _ _ => trivial
  | cons x xs ih =>
    obtain ⟨hx, hxs⟩ := List.forall_mem_cons.mp hf
    refine (hx.frame hP).bind fun _ => ?_
    intro b r b' h hs hp
    exact ih hxs _ _ _ h hs hp.2

/-- If each answer has a stable property, then all have it in the end. -/
theorem Keeps.mapM {f : α → Builder β} (hP : Stable P) (hR : ∀ x, Stable (R x))
    (hf : ∀ a, Keeps P (f a) R) (xs : List α) :
    Keeps P (xs.mapM f) fun ys b => ∀ y ∈ ys, R y b := by
  induction xs with
  | nil => exact .pure fun _ _ => List.forall_mem_nil _
  | cons x xs ih =>
    rw [List.mapM_cons]
    refine ((hf x).frame hP).bind fun y => ?_
    intro b r b' h hs hp
    obtain ⟨ys, b₁, hys, h⟩ := run_bind_ok h
    obtain ⟨hs₁, hg₁, hall⟩ := ih _ _ _ hys hs hp.2
    cases h
    exact ⟨hs₁, hg₁, List.forall_mem_cons.mpr ⟨hR y hg₁ hp.1, hall⟩⟩

/-! ## Searches that change nodes only -/

theorem nodeAt_quiet (id : NodeId) : Quiet (nodeAt id) := by
  intro b r b' h
  cases h
  exact ⟨rfl, rfl⟩

theorem size_quiet : Quiet size := by
  intro b r b' h
  cases h
  exact ⟨rfl, rfl⟩

theorem refuse_quiet : Quiet (refuse : Builder α) := .throw _

theorem changeNode_quiet (id : NodeId) (f : Node → Node) : Quiet (changeNode id f) := by
  intro b r b' h
  cases h
  exact ⟨rfl, rfl⟩

theorem lift_quiet (x : Except Fault α) : Quiet (liftM x : Builder α) := by
  intro b r b' h
  cases x with
  | error e => cases h
  | ok a =>
    cases h
    exact ⟨rfl, rfl⟩

end Builder

end

open Builder

theorem pairsOf_quiet (id : NodeId) : Quiet (pairsOf id) := by
  refine (nodeAt_quiet id).bind fun n => ?_
  split
  · exact .pure _
  · exact refuse_quiet

theorem itemsOf_quiet (id : NodeId) : Quiet (itemsOf id) := by
  refine (nodeAt_quiet id).bind fun n => ?_
  split
  · exact .pure _
  · exact refuse_quiet

theorem takeMerge_quiet (id : NodeId) : Quiet (takeMerge id) := by
  unfold takeMerge
  refine (pairsOf_quiet id).bind fun pairs => ?_
  have htype (p : NodeId × NodeId) : Quiet (return (← nodeAt p.1).type : Builder NodeType) :=
    (nodeAt_quiet p.1).bind fun _ => .pure _
  refine (Quiet.mapM htype pairs).bind fun types => ?_
  dsimp only
  split
  · exact .pure _
  · exact (changeNode_quiet id _).bind fun _ => .pure _

theorem plainKey_quiet (id : NodeId) : Quiet (plainKey id) := changeNode_quiet id _

theorem findM_quiet {α : Type} {f : α → Builder Bool} (hf : ∀ a, Quiet (f a)) (xs : List α) :
    Quiet (xs.findM? f) := by
  induction xs with
  | nil => exact .pure _
  | cons x xs ih =>
    refine (hf x).bind fun found => ?_
    cases found with
    | true => exact .pure _
    | false => exact ih

theorem nodeText_quiet (fuel : Nat) (id : NodeId) : Quiet (nodeText fuel id) := by
  induction fuel generalizing id with
  | zero => exact .throw _
  | succ fuel ih =>
    unfold nodeText
    refine (nodeAt_quiet id).bind fun n => ?_
    split
    · exact .pure _
    · exact refuse_quiet
    · have hkey (p : NodeId × NodeId) :
          Quiet (return (← nodeAt p.1).type = .value : Builder Bool) :=
        (nodeAt_quiet p.1).bind fun _ => .pure _
      refine (findM_quiet hkey _).bind fun found => ?_
      split
      · exact ih _
      · exact refuse_quiet

theorem atomOf_quiet (id : NodeId) (type : NodeType) : Quiet (atomOf id type) := by
  unfold atomOf
  split
  · exact refuse_quiet
  refine size_quiet.bind fun n => (nodeText_quiet _ _).bind fun t => ?_
  refine (nodeAt_quiet id).bind fun n => ?_
  split
  · exact .throw _
  · exact lift_quiet _

mutual

theorem mergedPairs_quiet : ∀ (fuel : Nat) (id : NodeId), Quiet (mergedPairs fuel id)
  | 0, _ => refuse_quiet
  | fuel + 1, id => by
    unfold mergedPairs
    refine (nodeAt_quiet id).bind fun n => ?_
    split
    · exact refuse_quiet
    · exact (merge_quiet fuel id []).bind fun _ => pairsOf_quiet id
    · refine (Quiet.mapM (fun item => ?_) _).bind fun _ => .pure _
      exact (pairsOf_quiet item).bind fun _ => (merge_quiet fuel item []).bind fun _ =>
        pairsOf_quiet item

theorem merge_quiet : ∀ (fuel : Nat) (id : NodeId) (merged : List (NodeId × NodeId)),
    Quiet (merge fuel id merged)
  | 0, _, _ => refuse_quiet
  | fuel + 1, id, merged => by
    unfold merge
    refine (takeMerge_quiet id).bind fun source => ?_
    split
    · exact (mergedPairs_quiet fuel _).bind fun _ => merge_quiet fuel id _
    · refine (pairsOf_quiet id).bind fun own => ?_
      exact (Quiet.forM (fun p => plainKey_quiet p.1) own).bind fun _ => changeNode_quiet id _

end

/-! ## Values and parts -/

section

variable {P : Building → Prop}

theorem value?_keeps (id : NodeId) :
    Keeps P (value? id) fun v b => b.values[id]?.join = v ∧ P b := by
  intro b r b' h hs hp
  cases h
  exact ⟨hs, .refl b, rfl, hp⟩

theorem setValue_keeps {id : NodeId} {v : Value} (ho : ∀ b, P b → b.Open id v)
    (hkeys : ∀ b pairs, P b → v = .mapping pairs → ∀ p ∈ pairs, ∃ a, b.Has p.1 (.atom a)) :
    Keeps P (setValue id v) fun _ _ => True := by
  intro b r b' h hs hp
  cases h
  exact ⟨hs.set (ho b hp) fun pairs => hkeys b pairs hp, (ho b hp).grows, trivial⟩

/-- A value that waits for its parts has none yet. -/
theorem await_keeps {id : NodeId} {v : Value} (hv : v.atom? = none)
    (hnone : ∀ pairs, v = .mapping pairs → pairs = []) :
    Keeps (fun b => b.values[id]?.join = none) (await id v) fun _ _ => True := by
  intro b r b' h hs hp
  cases h
  have ho : b.Open id v := .inl hp
  have hset : (b.set id v).Sound := hs.set ho fun pairs he p hm => by
    rw [hnone pairs he] at hm
    cases hm
  refine ⟨⟨fun id' hid => ?_, hset.keyed⟩, ⟨ho.grows.atoms, ho.grows.composites⟩, trivial⟩
  obtain rfl | hid := List.mem_cons.mp hid
  · exact Building.composite_set hv
  · exact hset.waits id' hid

end

theorem find_keeps (id : NodeId) : Keeps (fun _ => True) (find id) fun _ _ => True := by
  unfold find
  refine (value?_keeps id).bind fun v => ?_
  split
  · exact .pure fun _ _ => trivial
  have hopen {b b' : Building} (hv : b'.values = b.values) (h : b.values[id]?.join = none ∧ True) :
      b'.values[id]?.join = none ∧ True := hv ▸ h
  refine ((nodeAt_quiet id).keeps hopen).bind fun n => ?_
  have hawait {v : Value} (hv : v.atom? = none) (hnone : ∀ pairs, v = .mapping pairs → pairs = []) :
      Keeps (fun b => b.values[id]?.join = none ∧ True) (await id v) fun _ _ => True :=
    fun b r b' h hs hp => await_keeps hv hnone b r b' h hs hp.1
  split
  · exact hawait rfl (by simp)
  · exact hawait rfl (by simp)
  · exact hawait rfl (by simp)
  · exact hawait rfl (by simp)
  · exact hawait rfl (by simp)
  · refine ((atomOf_quiet id _).keeps hopen).bind fun a => ?_
    exact setValue_keeps (fun b h => .inl h.1) fun b pairs h he => nomatch he

/-- The keys that a mapping takes over are those of the entries before and of the new one. -/
theorem forall_setEntry {R : NodeId × Atom → Prop} {key : NodeId × Atom} {value : NodeId}
    (hk : R key) {es : List ((NodeId × Atom) × NodeId)} (h : ∀ e ∈ es, R e.1) :
    ∀ e ∈ setEntry key value es, R e.1 := by
  induction es with
  | nil => simpa [setEntry] using hk
  | cons e es ih =>
    obtain ⟨he, hes⟩ := List.forall_mem_cons.mp h
    unfold setEntry
    split
    · exact List.forall_mem_cons.mpr ⟨he, hes⟩
    · exact List.forall_mem_cons.mpr ⟨he, ih hes⟩

theorem forall_setEntries {R : NodeId × Atom → Prop} (ps : List ((NodeId × Atom) × NodeId))
    {es : List ((NodeId × Atom) × NodeId)} (hps : ∀ p ∈ ps, R p.1) (h : ∀ e ∈ es, R e.1) :
    ∀ e ∈ ps.foldl (fun es p => setEntry p.1 p.2 es) es, R e.1 := by
  induction ps generalizing es with
  | nil => exact h
  | cons p ps ih =>
    obtain ⟨hp, hps⟩ := List.forall_mem_cons.mp hps
    exact ih hps (forall_setEntry hp h)

theorem mergeBound_quiet : Quiet mergeBound := by
  intro b r b' h
  cases h
  exact ⟨rfl, rfl⟩

theorem entriesOf_keeps (id : NodeId) :
    Keeps (fun _ => True) (entriesOf id) fun es b => ∀ e ∈ es, ∃ a, b.Has e.1 (.atom a) := by
  have hquiet {α : Type} {m : Builder α} (hm : Quiet m) :
      Keeps (fun _ => True) m fun _ _ => True := hm.keeps fun _ h => h
  unfold entriesOf
  refine (hquiet (pairsOf_quiet id)).bind fun _ => ?_
  refine (hquiet mergeBound_quiet).bind fun bound => ?_
  refine (hquiet (merge_quiet bound id [])).bind fun _ => ?_
  refine (hquiet (pairsOf_quiet id)).bind fun pairs => ?_
  refine Keeps.bind (Keeps.mapM (P := fun _ => True)
    (R := fun p : (NodeId × Atom) × NodeId => fun b => b.Has p.1.1 (.atom p.1.2))
    (fun _ h => h) (fun p _ _ hg h => hg.atoms h) (fun kv => ?_) pairs) fun ps => ?_
  · obtain ⟨k, v⟩ := kv
    refine (find_keeps k).bind fun _ => (value?_keeps k).bind fun found => ?_
    split
    · exact .refuse
    · next a ha =>
      have hfound {b : Building} (h : b.values[k]?.join = found ∧ True) : b.Has k (.atom a) := by
        obtain ⟨rfl, -⟩ := h
        obtain ⟨w, hw, hwa⟩ := Option.bind_eq_some_iff.mp ha
        rw [Value.eq_atom_of_atom? hwa] at hw
        exact Option.join_eq_some_iff.mp hw
      have hkey {b b' : Building} (hg : b.Grows b') (h : b.Has k (.atom a)) : b'.Has k (.atom a) :=
        hg.atoms h
      refine Keeps.mono ?_ fun b h => hfound h
      refine (((find_keeps v).mono fun _ _ => trivial).frame hkey).bind fun _ => ?_
      exact .pure fun b h => h.2
  · refine .pure fun b h => ?_
    intro e he
    obtain ⟨p, hp, rfl⟩ := List.mem_map.mp he
    exact ⟨_, forall_setEntries (R := fun k => b.Has k.1 (.atom k.2)) ps h
      (List.forall_mem_nil _) p hp⟩

theorem onlyPair_keeps (id : NodeId) : Keeps (fun _ => True) (onlyPair id) fun _ _ => True := by
  refine ((pairsOf_quiet id).keeps fun _ h => h).bind fun pairs => ?_
  split
  · exact (find_keeps _).bind fun _ => (find_keeps _).bind fun _ => .pure fun _ _ => trivial
  · exact .refuse

/-- The parts of a value that waits do not change what is known of others. -/
theorem fill_keeps (id : NodeId) : Keeps (·.Composite id) (fill id) fun _ _ => True := by
  have hc {b b' : Building} (hg : b.Grows b') (h : b.Composite id) : b'.Composite id :=
    hg.composites h
  have hquiet {α : Type} {m : Builder α} (hm : Quiet m) :
      Keeps (·.Composite id) m fun _ b => b.Composite id :=
    hm.keeps fun hv => (Building.Grows.of_values hv).composites
  have hframe {α : Type} {m : Builder α} {Q : α → Building → Prop}
      (hm : Keeps (fun _ => True) m Q) :
      Keeps (·.Composite id) m fun a b => Q a b ∧ b.Composite id :=
    (hm.mono fun _ _ => trivial).frame hc
  have hset {R : Building → Prop} {v : Value} (hv : v.atom? = none)
      (hkeys : ∀ b pairs, R b → v = .mapping pairs → ∀ p ∈ pairs, ∃ a, b.Has p.1 (.atom a)) :
      Keeps (fun b => R b ∧ b.Composite id) (setValue id v) fun _ _ => True :=
    setValue_keeps (fun b h => .inr ⟨h.2, hv⟩) fun b pairs h => hkeys b pairs h.1
  have hpairs (items : List NodeId) : Keeps (·.Composite id)
      (do setValue id (.pairs (← items.mapM onlyPair))) fun _ _ => True := by
    refine (hframe (Keeps.mapM (R := fun _ _ => True) (fun _ h => h) (fun _ _ _ _ h => h)
      onlyPair_keeps items)).bind fun pairs => ?_
    exact hset rfl (by simp)
  unfold fill
  refine (hquiet (nodeAt_quiet id)).bind fun n => ?_
  split
  · refine (hquiet (itemsOf_quiet id)).bind fun items => ?_
    refine (hframe (Keeps.forM (fun _ h => h) fun item _ => find_keeps item)).bind fun _ => ?_
    exact hset rfl (by simp)
  · exact (hquiet (itemsOf_quiet id)).bind hpairs
  · exact (hquiet (itemsOf_quiet id)).bind hpairs
  · refine (hframe (entriesOf_keeps id)).bind fun es => ?_
    exact hset rfl (by simp)
  · refine (hframe (entriesOf_keeps id)).bind fun es => ?_
    exact hset rfl fun b pairs h he => by
      cases he
      exact h

theorem fillAll_keeps (rounds : Nat) :
    Keeps (fun _ => True) (fillAll rounds) fun _ _ => True := by
  induction rounds with
  | zero => exact .refuse
  | succ rounds ih =>
    intro b r b' h hs hp
    unfold fillAll at h
    obtain ⟨b₀, b₁, hget, h⟩ := run_bind_ok h
    cases hget
    split at h
    · cases h
      exact ⟨hs, .refl b, trivial⟩
    obtain ⟨u, b₂, hmodify, h⟩ := run_bind_ok h
    cases hmodify
    obtain ⟨u, b₃, hfill, h⟩ := run_bind_ok h
    have hb₁ : Building.Sound { b with waiting := [] } := hs.of_values rfl (List.nil_subset _)
    have hparts : Keeps (fun b' => ∀ id ∈ b.waiting.reverse, b'.Composite id)
        (b.waiting.reverse.forM fill) fun _ _ => True :=
      .forM (fun hg h id hid => hg.composites (h id hid)) fun id hid =>
        (fill_keeps id).mono fun b' h => h id hid
    obtain ⟨hs₃, hg₃, -⟩ := hparts _ _ _ hfill hb₁ fun id hid =>
      hs.waits id (List.mem_reverse.mp hid)
    obtain ⟨hs', hg', -⟩ := ih _ _ _ h hs₃ trivial
    have hg₁ : b.Grows { b with waiting := [] } := .of_values rfl
    exact ⟨hs', hg₁.trans (hg₃.trans hg'), trivial⟩

/-! ## Documents -/

/-- The keys of the mappings of a document are values without parts. -/
def Document.Keyed (d : Document) : Prop :=
  ∀ n pairs, d.value n = .mapping pairs → ∀ p ∈ pairs, ∃ a, d.value p.1 = .atom a

/-- Values that are not known in the end are empty, so they have no keys. -/
theorem Building.Sound.keyed_document {b : Building} (hs : b.Sound) (root : NodeId) :
    Document.Keyed ⟨root, b.values.map fun v => v.getD default⟩ := by
  have hvalue (n : NodeId) :
      Document.value ⟨root, b.values.map fun v => v.getD default⟩ n =
        (b.values[n]?.join).getD default := by
    unfold Document.value
    rw [Array.getElem?_map]
    cases b.values[n]? <;> rfl
  intro n pairs h p hp
  rw [hvalue] at h
  have hn : b.Has n (.mapping pairs) := by
    cases hj : b.values[n]?.join with
    | none =>
      rw [hj] at h
      cases h
    | some v =>
      rw [hj] at h
      cases h
      exact Option.join_eq_some_iff.mp hj
  obtain ⟨a, ha⟩ := hs.keyed hn p hp
  refine ⟨a, ?_⟩
  rw [hvalue, show b.values[p.1]? = _ from ha]
  rfl

theorem Graph.document_keyed {g : Graph} {d : Document} (h : g.document = .ok d) : d.Keyed := by
  have hstart : Building.Sound ⟨g.nodes, Array.replicate g.nodes.size none, []⟩ := by
    refine ⟨fun id h => (List.not_mem_nil h).elim, fun {id pairs} h => ?_⟩
    unfold Building.Has at h
    obtain ⟨hlt, he⟩ := Array.getElem?_eq_some_iff.mp h
    rw [Array.getElem_replicate] at he
    cases he
  have hkeeps := (find_keeps g.root).bind fun _ => fillAll_keeps (g.nodes.size + 1)
  unfold Graph.document at h
  dsimp only at h
  cases hr : StateT.run (do find g.root; fillAll (g.nodes.size + 1) : Builder Unit)
      ⟨g.nodes, Array.replicate g.nodes.size none, []⟩ with
  | error f =>
    rw [hr] at h
    cases h
  | ok p =>
    obtain ⟨u, b⟩ := p
    rw [hr] at h
    cases h
    obtain ⟨hs, -, -⟩ := hkeeps _ _ _ hr hstart trivial
    exact hs.keyed_document g.root

theorem read_keyed {cs : List Char} {d : Document} (h : read cs = .ok d) : d.Keyed := by
  unfold read at h
  cases hg : Graph.ofText cs with
  | error f =>
    rw [hg] at h
    cases h
  | ok g =>
    rw [hg] at h
    cases g with
    | none =>
      cases h
      intro n pairs hn
      cases hn
    | some g => exact Graph.document_keyed h

/-- A mapping of such a document has an entry for each of its keys. -/
theorem Document.Keyed.entries_map {d : Document} (hd : d.Keyed) {n : NodeId}
    {pairs : List (NodeId × NodeId)} (h : d.value n = .mapping pairs) :
    (d.entries pairs).map (fun e => (Value.atom e.1, e.2)) =
      pairs.map fun p => (d.value p.1, d.value p.2) := by
  have hkeys := hd n pairs h
  clear h
  unfold Document.entries
  induction pairs with
  | nil => rfl
  | cons p pairs ih =>
    obtain ⟨⟨a, ha⟩, hps⟩ := List.forall_mem_cons.mp hkeys
    have hp : (d.value p.1).atom? = some a := by rw [ha]; rfl
    rw [List.filterMap_cons, hp, Option.map_some, List.map_cons, List.map_cons, ih hps, ha]

end ManifestTree.Yaml
