import ManifestTree.Proofs.TextPlaces
import ManifestTree.Proofs.Walk
import Mathlib.Data.List.Nodup

/-!
# Rows of spans

Spans that are not empty and stand one after the other make a row, whose hull runs from the start of
the first to the end of the last.  Taking the parts of a row together in runs gives a row with the
same hull, and so does putting rows in the place of its spans.  Elements whose spans make a row are
in the order in which sorting by start puts them.
-/

namespace ManifestTree

/-! ## Hulls -/

namespace Span

@[simp] theorem join_self (a : Span) : a.join a = a := rfl

/-- From the start of the first span to the end of the last one. -/
def hull (ss : List Span) : Option Span := ss.head?.bind fun a => ss.getLast?.map a.join

theorem hull_eq_some {ss : List Span} {s : Span} :
    hull ss = some s ↔ ∃ a b, ss.head? = some a ∧ ss.getLast? = some b ∧ s = a.join b := by
  unfold hull
  rw [Option.bind_eq_some_iff]
  constructor
  · rintro ⟨a, hhead, h⟩
    obtain ⟨b, hlast, hs⟩ := Option.map_eq_some_iff.mp h
    exact ⟨a, b, hhead, hlast, hs.symm⟩
  · rintro ⟨a, b, hhead, hlast, rfl⟩
    exact ⟨a, hhead, by rw [hlast]; rfl⟩

@[simp] theorem hull_nil : hull [] = none := rfl

@[simp] theorem hull_singleton (s : Span) : hull [s] = some s := rfl

theorem hull_isSome {ss : List Span} (h : ss ≠ []) : ∃ s, hull ss = some s := by
  obtain ⟨a, rest, rfl⟩ := List.exists_cons_of_ne_nil h
  exact ⟨_, hull_eq_some.mpr ⟨a, _, rfl, List.getLast?_eq_some_getLast (List.cons_ne_nil _ _), rfl⟩⟩

/-- The hull of spans between two others. -/
theorem hull_bracketed (a b : Span) (ss : List Span) : hull (a :: ss ++ [b]) = some (a.join b) :=
  hull_eq_some.mpr ⟨a, b, rfl, List.getLast?_concat, rfl⟩

theorem hull_append {xs ys : List Span} {a b : Span} (hx : hull xs = some a)
    (hy : hull ys = some b) : hull (xs ++ ys) = some (a.join b) := by
  obtain ⟨a₁, a₂, hhead, -, rfl⟩ := hull_eq_some.mp hx
  obtain ⟨b₁, b₂, -, hlast, rfl⟩ := hull_eq_some.mp hy
  refine hull_eq_some.mpr ⟨a₁, b₂, ?_, ?_, rfl⟩
  · rw [List.head?_append, hhead]
    rfl
  · rw [List.getLast?_append, hlast]
    rfl

theorem hull_flatMap {α : Type} {run : α → List Span} {whole : α → Span} {xs : List α}
    (h : ∀ x ∈ xs, hull (run x) = some (whole x)) :
    hull (xs.flatMap run) = hull (xs.map whole) := by
  induction xs with
  | nil => rfl
  | cons x xs ih =>
    obtain ⟨hx, hxs⟩ := List.forall_mem_cons.mp h
    rw [List.flatMap_cons, List.map_cons]
    cases xs with
    | nil => simpa using hx
    | cons y ys =>
      obtain ⟨s, hs⟩ : ∃ s, hull ((y :: ys).map whole) = some s := hull_isSome (by simp)
      rw [hull_append hx ((ih hxs).trans hs)]
      exact (hull_append (hull_singleton (whole x)) hs).symm

end Span

/-! ## Rows -/

/-- The spans are correct and not empty, and each ends before the next one starts. -/
structure Span.Row (source : Text) (ss : List Span) : Prop where
  correct : ∀ s ∈ ss, s.Correct source
  nonempty : ∀ s ∈ ss, s.start < s.stop
  ordered : ss.Pairwise fun a b => a.stop ≤ b.start

namespace Span.Row

variable {source : Text} {xs ys ss : List Span} {s : Span}

theorem nil (source : Text) : Span.Row source [] :=
  ⟨List.forall_mem_nil _, List.forall_mem_nil _, .nil⟩

theorem singleton (hs : s.Correct source) (hlt : s.start < s.stop) : Span.Row source [s] :=
  ⟨List.forall_mem_singleton.mpr hs, List.forall_mem_singleton.mpr hlt,
    List.pairwise_singleton _ _⟩

theorem append (hx : Span.Row source xs) (hy : Span.Row source ys)
    (hxy : ∀ a ∈ xs, ∀ b ∈ ys, a.stop ≤ b.start) : Span.Row source (xs ++ ys) :=
  ⟨List.forall_mem_append.mpr ⟨hx.correct, hy.correct⟩,
    List.forall_mem_append.mpr ⟨hx.nonempty, hy.nonempty⟩,
    List.pairwise_append.mpr ⟨hx.ordered, hy.ordered, hxy⟩⟩

theorem of_append (h : Span.Row source (xs ++ ys)) :
    Span.Row source xs ∧ Span.Row source ys ∧ ∀ a ∈ xs, ∀ b ∈ ys, a.stop ≤ b.start := by
  obtain ⟨hcx, hcy⟩ := List.forall_mem_append.mp h.correct
  obtain ⟨hnx, hny⟩ := List.forall_mem_append.mp h.nonempty
  obtain ⟨hox, hoy, hxy⟩ := List.pairwise_append.mp h.ordered
  exact ⟨⟨hcx, hnx, hox⟩, ⟨hcy, hny, hoy⟩, hxy⟩

/-- The spans of a row stand within its hull, which is right about its text. -/
theorem of_hull (h : Span.Row source ss) (hs : hull ss = some s) :
    s.Correct source ∧ s.start < s.stop ∧ ∀ x ∈ ss, s.start ≤ x.start ∧ x.stop ≤ s.stop := by
  obtain ⟨a, b, hhead, hlast, rfl⟩ := hull_eq_some.mp hs
  obtain ⟨rest, hrest⟩ := List.head?_eq_some_iff.mp hhead
  obtain ⟨front, hfront⟩ := List.getLast?_eq_some_iff.mp hlast
  have ha : a ∈ ss := by rw [hrest]; exact List.mem_cons_self
  have hb : b ∈ ss := by rw [hfront]; exact List.mem_append_right _ List.mem_cons_self
  have hwithin : ∀ x ∈ ss, a.start ≤ x.start ∧ x.stop ≤ b.stop := by
    intro x hx
    have hlt := h.nonempty x hx
    have hlower : a.start ≤ x.start := by
      have hordered := h.ordered
      rw [hrest] at hx hordered
      rcases List.mem_cons.mp hx with rfl | hx
      · exact Int.le_refl _
      · have := (List.pairwise_cons.mp hordered).1 x hx
        have := h.nonempty a ha
        omega
    have hupper : x.stop ≤ b.stop := by
      have hordered := h.ordered
      rw [hfront] at hx hordered
      rcases List.mem_append.mp hx with hx | hx
      · have := (List.pairwise_append.mp hordered).2.2 x hx b List.mem_cons_self
        have := h.nonempty b hb
        omega
      · rw [List.mem_singleton.mp hx]
    exact ⟨hlower, hupper⟩
  have hlt : a.start < b.stop := by
    have := (hwithin b hb).1
    have := h.nonempty b hb
    omega
  exact ⟨(h.correct a ha).join (h.correct b hb) (Int.le_of_lt hlt), hlt, hwithin⟩

variable {α : Type} {run : α → List Span} {whole : α → Span} {items : List α}

/-- Each run of a row taken together, the spans make a row again. -/
theorem coarsen (h : Span.Row source (items.flatMap run))
    (hrun : ∀ x ∈ items, hull (run x) = some (whole x)) : Span.Row source (items.map whole) := by
  induction items with
  | nil => exact .nil source
  | cons x xs ih =>
    obtain ⟨hx, hxs⟩ := List.forall_mem_cons.mp hrun
    rw [List.flatMap_cons] at h
    obtain ⟨hfront, hback, hordered⟩ := h.of_append
    obtain ⟨hcorrect, hlt, -⟩ := hfront.of_hull hx
    refine (Span.Row.singleton hcorrect hlt).append (ih hback hxs) ?_
    refine List.forall_mem_singleton.mpr (List.forall_mem_map.mpr fun y hy => ?_)
    obtain ⟨a, b, -, hlast, hwhole⟩ := hull_eq_some.mp hx
    obtain ⟨c, d, hhead, -, hnext⟩ := hull_eq_some.mp (hxs y hy)
    have hb : b ∈ run x := List.mem_of_getLast? hlast
    have hc : c ∈ xs.flatMap run := List.mem_flatMap.mpr ⟨y, hy, List.mem_of_mem_head? hhead⟩
    rw [hwhole, hnext]
    exact hordered b hb c hc

/-- A row in the place of each of its spans makes a row again. -/
theorem refine_runs (h : Span.Row source (items.map whole))
    (hrun : ∀ x ∈ items, Span.Row source (run x) ∧ hull (run x) = some (whole x)) :
    Span.Row source (items.flatMap run) := by
  induction items with
  | nil => exact .nil source
  | cons x xs ih =>
    obtain ⟨⟨hrow, hx⟩, hxs⟩ := List.forall_mem_cons.mp hrun
    have hsplit : Span.Row source ([whole x] ++ xs.map whole) := h
    obtain ⟨-, hback, hordered⟩ := hsplit.of_append
    rw [List.flatMap_cons]
    refine hrow.append (ih hback hxs) fun a ha b hb => ?_
    obtain ⟨y, hy, hb⟩ := List.mem_flatMap.mp hb
    have hle := List.forall_mem_singleton.mp hordered (whole y) (List.mem_map_of_mem hy)
    have := ((hrow.of_hull hx).2.2 a ha).2
    have := (((hxs y hy).1.of_hull (hxs y hy).2).2.2 b hb).1
    omega

end Span.Row

/-! ## Sorting -/

section Sorting

variable {α : Type} {start : α → Int} {xs ys : List α}

/-- Elements that are in the order of different starts are what sorting gives. -/
theorem eq_of_sorted (hperm : xs.Perm ys) (hxs : xs.Pairwise fun a b => start a ≤ start b)
    (hys : ys.Pairwise fun a b => start a < start b) : xs = ys := by
  have hnodup : (ys.map start).Nodup :=
    List.pairwise_map.mpr (hys.imp fun h => Int.ne_of_lt h)
  have hle : ys.Pairwise fun a b => start a ≤ start b := hys.imp Int.le_of_lt
  refine hperm.eq_of_pairwise (fun a b ha hb hab hba => ?_) hxs hle
  exact List.inj_on_of_nodup_map hnodup (hperm.mem_iff.mp ha) hb (Int.le_antisymm hab hba)

theorem filter_sortByStart {p : α → Bool} (hperm : (xs.filter p).Perm ys)
    (hys : ys.Pairwise fun a b => start a < start b) : (sortByStart start xs).filter p = ys := by
  have hsorted := (sortByStart_pairwise start xs).filter p
  exact eq_of_sorted (((sortByStart_perm start xs).filter p).trans hperm) hsorted hys

theorem sortByStart_eq (hperm : xs.Perm ys) (hys : ys.Pairwise fun a b => start a < start b) :
    sortByStart start xs = ys :=
  eq_of_sorted ((sortByStart_perm start xs).trans hperm) (sortByStart_pairwise start xs) hys

end Sorting

/-- Elements whose spans make a row have different starts. -/
theorem Span.Row.starts {source : Text} {α : Type} {span : α → Span} {xs : List α}
    (h : Span.Row source (xs.map span)) :
    xs.Pairwise fun a b => (span a).start < (span b).start := by
  refine (List.pairwise_map.mp h.ordered).imp_of_mem fun {a b} ha hb hab => ?_
  have := h.nonempty (span a) (List.mem_map_of_mem ha)
  omega

end ManifestTree
