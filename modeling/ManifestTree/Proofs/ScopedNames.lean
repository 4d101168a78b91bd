import ManifestTree.Tree.Traversal
import ManifestTree.Parse.Leaves
import Mathlib.Data.List.Basic

/-!
# Scoped names

A scoped name is written as segments with double colons between them, after one if it is absolute.
Whatever the scanner takes for a name, a reference or a variable is written so.  A segment is a run
of word characters and holds no colon, so a name that is split at its double colons gives the
segments back.
-/

namespace ManifestTree

open Text

namespace Lexeme

/-! ## Spelling -/

/-- Word characters, and at least one. -/
def IsSegment (s : Text) : Prop := s ≠ [] ∧ ∀ c ∈ s, isWord c

/-- How a name is written. -/
def spelledName (absolute : Bool) (segments : List Text) : Text :=
  (if absolute then [.char ':', .char ':'] else []) ++ [.char ':', .char ':'].intercalate segments

/-- The text is a scoped name. -/
def Scoped (text : Text) : Prop :=
  ∃ absolute segments, segments ≠ [] ∧ (∀ s ∈ segments, IsSegment s) ∧
    text = spelledName absolute segments

theorem ne_colon_of_isWord {c : CodePoint} (hc : isWord c) : c ≠ ':' := by
  rintro rfl
  exact absurd hc (by decide)

theorem IsSegment.colon_not_mem {s : Text} (h : IsSegment s) : .char ':' ∉ s :=
  fun hmem => ne_colon_of_isWord (h.2 _ hmem) rfl

/-- A word character before a segment. -/
theorem IsSegment.cons {c : CodePoint} {s : Text} (hc : isWord c) (hs : ∀ d ∈ s, isWord d) :
    IsSegment (c :: s) := ⟨List.cons_ne_nil c s, List.forall_mem_cons.mpr ⟨hc, hs⟩⟩

theorem startsSegment_isWord {c : CodePoint} (h : startsSegment c) : isWord c := by
  have hle : c = '_' ∨ c.val ≤ 127 := by
    simp only [startsSegment, isAsciiLower, isAsciiUpper, Bool.or_eq_true, Bool.and_eq_true,
      decide_eq_true_eq] at h
    rcases h with (⟨-, h⟩ | ⟨-, h⟩) | h
    · exact .inr (Nat.le_trans (show c.val ≤ 'z'.toNat from h) (by decide))
    · exact .inr (Nat.le_trans (show c.val ≤ 'Z'.toNat from h) (by decide))
    · exact .inl h
  simp only [startsSegment, isWord, isAlphanumeric] at h ⊢
  grind

/-! ## What the scanner takes -/

section

variable {first starts : CodePoint → Bool} {cs : Text} {n : Nat}

/-- The tail of a scoped name is the rest of a segment and further segments. -/
theorem take_scopedTail (hs : ∀ c, starts c → isWord c) (cs : Text) :
    ∃ s segments, (∀ c ∈ s, isWord c) ∧ (∀ t ∈ segments, IsSegment t) ∧
      cs.take (scopedTail starts cs) = [.char ':', .char ':'].intercalate (s :: segments) := by
  induction cs using scopedTail.induct starts with
  | case1 c cs hc ih =>
    obtain ⟨s, segments, hword, hsegments, htake⟩ := ih
    refine ⟨[], (c :: s) :: segments, List.forall_mem_nil _,
      List.forall_mem_cons.mpr ⟨.cons (hs c hc) hword, hsegments⟩, ?_⟩
    rw [scopedTail, if_pos hc, List.take_succ_cons, List.take_succ_cons, List.take_succ_cons, htake]
    cases segments <;> simp
  | case2 c cs hc =>
    refine ⟨[], [], List.forall_mem_nil _, List.forall_mem_nil _, ?_⟩
    rw [scopedTail, if_neg hc]
    rfl
  | case3 c cs hno hc ih =>
    obtain ⟨s, segments, hword, hsegments, htake⟩ := ih
    refine ⟨c :: s, segments, List.forall_mem_cons.mpr ⟨hc, hword⟩, hsegments, ?_⟩
    rw [scopedTail, if_pos hc, List.take_succ_cons, htake]
    · cases segments <;> simp
    · exact hno
  | case4 c cs hno hc =>
    refine ⟨[], [], List.forall_mem_nil _, List.forall_mem_nil _, ?_⟩
    rw [scopedTail, if_neg hc]
    · rfl
    · exact hno
  | case5 => exact ⟨[], [], List.forall_mem_nil _, List.forall_mem_nil _, rfl⟩

theorem scopedLength?_scoped (hf : ∀ c, first c → isWord c) (hs : ∀ c, starts c → isWord c)
    (h : scopedLength? first starts cs = some n) : Scoped (cs.take n) := by
  -- A first character and a tail make at least one segment.
  have segmented {c : CodePoint} (hc : first c) (cs : Text) :
      ∃ segments, segments ≠ [] ∧ (∀ s ∈ segments, IsSegment s) ∧
        c :: cs.take (scopedTail starts cs) = [.char ':', .char ':'].intercalate segments := by
    obtain ⟨s, segments, hword, hsegments, htake⟩ := take_scopedTail hs cs
    refine ⟨(c :: s) :: segments, List.cons_ne_nil _ _,
      List.forall_mem_cons.mpr ⟨.cons (hf c hc) hword, hsegments⟩, ?_⟩
    rw [htake]
    cases segments <;> simp
  unfold scopedLength? at h
  split at h
  · split at h
    · rename_i c cs hc
      cases h
      obtain ⟨segments, hne, hsegments, heq⟩ := segmented hc cs
      refine ⟨true, segments, hne, hsegments, ?_⟩
      rw [spelledName, ← heq]
      rfl
    · cases h
  · split at h
    · rename_i c cs _ hc
      cases h
      obtain ⟨segments, hne, hsegments, heq⟩ := segmented hc cs
      exact ⟨false, segments, hne, hsegments, heq⟩
    · cases h
  · cases h

theorem nameLength?_scoped (h : nameLength? cs = some n) : Scoped (cs.take n) := by
  refine scopedLength?_scoped (fun c hc => startsSegment_isWord ?_)
    (fun c => startsSegment_isWord) h
  simp only [startsSegment]
  grind

theorem referenceLength?_scoped (h : referenceLength? cs = some n) : Scoped (cs.take n) := by
  refine scopedLength?_scoped (fun c hc => startsSegment_isWord ?_)
    (fun c => startsSegment_isWord) h
  simp only [startsSegment]
  grind

/-- A variable is a scoped name after a dollar sign. -/
theorem variableLength?_scoped (h : variableLength? cs = some n) :
    ∃ name, cs.take n = .char '$' :: name ∧ Scoped name := by
  unfold variableLength? at h
  split at h
  · obtain ⟨m, hm, rfl⟩ := Option.map_eq_some_iff.mp h
    exact ⟨_, List.take_succ_cons, scopedLength?_scoped (fun _ => id) (fun _ => id) hm⟩
  · cases h

end

/-! ## Splitting names -/

theorem splitSegments_ne_nil (cs : Text) : splitSegments cs ≠ [] := by
  unfold splitSegments
  split
  · exact List.cons_ne_nil _ _
  · split <;> exact List.cons_ne_nil _ _
  · exact List.cons_ne_nil _ _

/-- Word characters go to the first segment. -/
theorem splitSegments_append {s : Text} (hs : ∀ c ∈ s, isWord c) (cs : Text) :
    splitSegments (s ++ cs) = (splitSegments cs).modifyHead (s ++ ·) := by
  induction s with
  | nil =>
    rw [List.nil_append]
    cases splitSegments cs <;> rfl
  | cons c s ih =>
    obtain ⟨hc, hs⟩ := List.forall_mem_cons.mp hs
    have hcolon : ∀ ds, c = ':' → s ++ cs = .char ':' :: ds → False :=
      fun _ h _ => ne_colon_of_isWord hc h
    rw [List.cons_append, splitSegments.eq_2 _ _ hcolon, ih hs]
    cases h : splitSegments cs with
    | nil => exact absurd h (splitSegments_ne_nil cs)
    | cons t segments => rfl

/-- Segments with double colons between them are split into themselves. -/
theorem splitSegments_intercalate {segments : List Text} (hne : segments ≠ [])
    (h : ∀ s ∈ segments, IsSegment s) :
    splitSegments ([.char ':', .char ':'].intercalate segments) = segments := by
  induction segments with
  | nil => exact absurd rfl hne
  | cons s segments ih =>
    obtain ⟨hs, h⟩ := List.forall_mem_cons.mp h
    cases segments with
    | nil =>
      have happend := splitSegments_append hs.2 []
      rw [List.append_nil] at happend
      rw [List.intercalate_singleton, happend]
      simp [splitSegments]
    | cons t segments =>
      rw [List.intercalate_cons_cons, List.append_assoc, splitSegments_append hs.2]
      have hcolons : splitSegments
          ([.char ':', .char ':'] ++ [.char ':', .char ':'].intercalate (t :: segments)) =
          [] :: splitSegments ([.char ':', .char ':'].intercalate (t :: segments)) := rfl
      rw [hcolons, ih (List.cons_ne_nil _ _) h]
      simp

/-- Segments with double colons between them begin with a word character. -/
theorem exists_intercalate_eq_cons {segments : List Text} (hne : segments ≠ [])
    (h : ∀ s ∈ segments, IsSegment s) :
    ∃ c cs, isWord c ∧ [.char ':', .char ':'].intercalate segments = c :: cs := by
  cases segments with
  | nil => exact absurd rfl hne
  | cons s segments =>
    obtain ⟨hs, -⟩ := List.forall_mem_cons.mp h
    obtain ⟨c, s, rfl⟩ := List.exists_cons_of_ne_nil hs.1
    obtain ⟨hc, -⟩ := List.forall_mem_cons.mp hs.2
    cases segments <;> exact ⟨c, _, hc, by simp; rfl⟩

end Lexeme

open Lexeme

theorem Shape.ofName_spelledName {α : Type} (form : NameForm) (absolute : Bool)
    {segments : List Text} (hne : segments ≠ []) (h : ∀ s ∈ segments, IsSegment s) :
    (Shape.ofName form (spelledName absolute segments) : Shape α) =
      .scopedName form segments absolute := by
  have hsplit := splitSegments_intercalate hne h
  cases absolute with
  | true =>
    have habsolute : (Shape.ofName form (spelledName true segments) : Shape α) = .scopedName form
        (splitSegments (List.intercalate [.char ':', .char ':'] segments)) true := rfl
    rw [habsolute, hsplit]
  | false =>
    obtain ⟨c, cs, hc, heq⟩ := exists_intercalate_eq_cons hne h
    show (Shape.ofName form (List.intercalate _ _) : Shape α) = _
    rw [heq, Shape.ofName, ← heq, hsplit]
    exact fun _ hcons => ne_colon_of_isWord hc (List.cons.inj hcons).1

/-- A name that is spelled out begins with a double colon only if it is absolute. -/
theorem Lexeme.colons_prefix_spelledName {absolute : Bool} {segments : List Text}
    (hne : segments ≠ []) (h : ∀ s ∈ segments, IsSegment s) :
    [.char ':', .char ':'] <+: spelledName absolute segments ↔ absolute = true := by
  cases absolute with
  | true => exact ⟨fun _ => rfl, fun _ => List.prefix_append _ _⟩
  | false =>
    obtain ⟨c, cs, hc, heq⟩ := exists_intercalate_eq_cons hne h
    refine ⟨fun hprefix => ?_, fun hfalse => by cases hfalse⟩
    have hspelled : spelledName false segments = c :: cs := heq
    rw [hspelled, List.cons_prefix_cons] at hprefix
    exact absurd hprefix.1.symm (ne_colon_of_isWord hc)

/-- A scoped name holds word characters and colons. -/
theorem Lexeme.Scoped.mem {text : Text} (h : Scoped text) :
    ∀ c ∈ text, isWord c ∨ c = ':' := by
  obtain ⟨absolute, segments, -, hsegments, rfl⟩ := h
  have hcolons : ∀ c ∈ [.char ':', .char ':'], isWord c ∨ c = ':' := by simp
  have hjoined : ∀ c ∈ [.char ':', .char ':'].intercalate segments, isWord c ∨ c = ':' := by
    induction segments with
    | nil => exact List.forall_mem_nil _
    | cons s segments ih =>
      obtain ⟨hs, hsegments⟩ := List.forall_mem_cons.mp hsegments
      have hword : ∀ c ∈ s, isWord c ∨ c = ':' := fun c hc => .inl (hs.2 c hc)
      cases segments with
      | nil => simpa using hword
      | cons t segments =>
        rw [List.intercalate_cons_cons]
        exact List.forall_mem_append.mpr
          ⟨List.forall_mem_append.mpr ⟨hword, hcolons⟩, ih hsegments⟩
  refine List.forall_mem_append.mpr ⟨?_, hjoined⟩
  cases absolute with
  | true => exact hcolons
  | false => exact List.forall_mem_nil _

/-- A scoped name does not begin with a dollar sign. -/
theorem Lexeme.Scoped.withoutSigil {text : Text} (h : Scoped text) :
    Token.withoutSigil text = text := by
  obtain ⟨absolute, segments, hne, hsegments, rfl⟩ := h
  obtain ⟨c, cs, hc, heq⟩ := exists_intercalate_eq_cons hne hsegments
  have hsigil : c ≠ '$' := by
    rintro rfl
    exact absurd hc (by decide)
  cases absolute with
  | true => rfl
  | false =>
    have hspelled : spelledName false segments = c :: cs := heq
    rw [hspelled]
    unfold Token.withoutSigil
    split
    · rename_i hcons
      exact absurd (List.cons.inj hcons).1 hsigil
    · rfl

/-- The name of a node of that shape is put together from its segments. -/
theorem Node.name?_spelledName (s : Span) (form : NameForm) (absolute : Bool)
    (segments : List Text) :
    (Node.plain s (.scopedName form segments absolute)).name? =
      some (spelledName absolute segments) := by
  cases absolute <;> rfl

end ManifestTree
