import ManifestTree.Proofs.HeredocExtent

/-!
# Places in a text

`Span.Correct` says what a span claims about a text: its offsets lie in the text, its line is one
more than the line feeds before its start, and its column counts from the start of that line.
Reading from the start of the text gives these numbers, and `Span.Covers` says that a span was got
in that way: it takes some characters that stand in the text at its place.
-/

namespace ManifestTree

/-! ## Lines and columns -/

/-- Where the last line of a text starts: just after its last line feed. -/
def lineStart (cs : Text) : Nat := cs.length - (cs.reverse.takeWhile (· ≠ .char '\n')).length

theorem lineStart_le (cs : Text) : lineStart cs ≤ cs.length := Nat.sub_le _ _

theorem lineStart_concat (cs : Text) (c : CodePoint) :
    lineStart (cs ++ [c]) = if c = '\n' then cs.length + 1 else lineStart cs := by
  unfold lineStart
  rw [List.reverse_append, List.length_append]
  by_cases h : c = '\n'
  · simp [h]
  · simp [h]

/-- The line and the column of a place are those after the characters before it. -/
theorem Position.start_after (cs : Text) :
    Position.start.after cs =
        ⟨cs.length, 1 + cs.count (.char '\n'), cs.length - lineStart cs + 1⟩ := by
  induction cs using List.reverseRecOn with
  | nil => rfl
  | append_singleton cs c ih =>
    have hle := lineStart_le cs
    rw [Position.after_append, ih, lineStart_concat, Position.after_cons, Position.after_nil]
    unfold Position.step
    by_cases h : c = '\n'
    · simp [h]
      omega
    · simp [h]
      omega

namespace Span

/-- The span lies in the text, and its line and column are those of its start. -/
structure Correct (source : Text) (s : Span) : Prop where
  starts : 0 ≤ s.start
  ordered : s.start ≤ s.stop
  ends : s.stop ≤ source.length
  line : s.line = 1 + (source.take s.start.toNat).count (.char '\n')
  column : s.column = s.start - lineStart (source.take s.start.toNat) + 1

/-- From the start of a correct span to a later end. -/
theorem Correct.join {source : Text} {a b : Span} (ha : a.Correct source)
    (hb : b.Correct source) (hab : a.start ≤ b.stop) : (a.join b).Correct source :=
  ⟨ha.starts, hab, hb.ends, ha.line, ha.column⟩

end Span

/-! ## Characters at a place -/

/-- The characters stand in the text at the place. -/
def Position.Holds (source : Text) (p : Position) (cs : Text) : Prop :=
  ∃ before after, source = before ++ cs ++ after ∧ p = Position.start.after before

namespace Position.Holds

variable {source : Text} {p : Position} {as bs : Text}

theorem nil (h : p.Holds source as) : p.Holds source [] := by
  obtain ⟨before, after, hs, hp⟩ := h
  exact ⟨before, as ++ after, by rw [hs]; simp only [List.append_nil, List.append_assoc], hp⟩

theorem left (h : p.Holds source (as ++ bs)) : p.Holds source as := by
  obtain ⟨before, after, hs, hp⟩ := h
  exact ⟨before, bs ++ after, by rw [hs]; simp only [List.append_assoc], hp⟩

theorem right (h : p.Holds source (as ++ bs)) : (p.after as).Holds source bs := by
  obtain ⟨before, after, hs, hp⟩ := h
  exact ⟨before ++ as, after, by rw [hs]; simp only [List.append_assoc],
    by rw [hp, Position.after_append]⟩

end Position.Holds

theorem Cursor.Reads.holds {source cs : Text} {c d : Cursor} (h : c.Reads cs d)
    (hc : Cursor.At source c) : c.pos.Holds source cs := by
  obtain ⟨before, hs, hp⟩ := hc
  exact ⟨before, d.rest, by rw [hs, h.rest, List.append_assoc], hp⟩

namespace Span

variable {source cs : Text} {p : Position} {s : Span}

/-- The span takes the characters, which stand in the text at its place. -/
structure Covers (source cs : Text) (s : Span) : Prop where
  placed : s = between s.position (s.position.after cs)
  holds : s.position.Holds source cs

theorem covers_between (h : p.Holds source cs) : (between p (p.after cs)).Covers source cs :=
  ⟨by rw [between_position], by rwa [between_position]⟩

theorem Covers.start_eq (h : s.Covers source cs) : s.start = s.position.offset := by
  conv_lhs => rw [h.placed]
  rfl

theorem Covers.stop_eq (h : s.Covers source cs) : s.stop = s.position.offset + cs.length := by
  conv_lhs => rw [h.placed]
  simp

/-- A span that takes characters of a text is right about them. -/
theorem Covers.correct (h : s.Covers source cs) : s.Correct source := by
  obtain ⟨before, after, hs, hp⟩ := h.holds
  have hstart := h.start_eq
  have hstop := h.stop_eq
  have hline : s.line = s.position.line := by
    conv_lhs => rw [h.placed]
    rfl
  have hcolumn : s.column = s.position.column := by
    conv_lhs => rw [h.placed]
    rfl
  rw [hp, Position.start_after] at hstart hstop hline hcolumn
  have htake : source.take s.start.toNat = before := by
    rw [hstart, hs, List.append_assoc]
    exact List.take_left
  have hlength : source.length = before.length + cs.length + after.length := by
    simp [hs, Nat.add_assoc]
  have hle := lineStart_le before
  simp only at hstart hstop hline hcolumn
  refine ⟨by omega, by omega, by omega, ?_, ?_⟩
  · rw [htake]
    omega
  · rw [htake]
    omega

theorem Covers.nonempty (h : s.Covers source cs) (hne : cs ≠ []) : s.start < s.stop := by
  have := List.length_pos_iff.mpr hne
  rw [h.start_eq, h.stop_eq]
  omega

/-- A count of characters takes as many of those that stand there. -/
theorem sized_eq (p : Position) (cs : Text) : sized p cs.length = between p (p.after cs) := by
  simp [sized, between]

end Span

/-! ## Rows of fragments and tokens -/

/-- Fragments that tile characters of a text take their own. -/
theorem Fragment.Tiles.covers {source : Text} {p : Position} {fs : List Fragment}
    {cs : Text} (h : Fragment.Tiles p fs cs) (hp : p.Holds source cs) :
    ∀ f ∈ fs, f.span.Covers source f.text := by
  induction h with
  | nil => exact List.forall_mem_nil _
  | cons _ hspan _ ih =>
    refine List.forall_mem_cons.mpr ⟨?_, ih hp.right⟩
    rw [hspan]
    exact Span.covers_between hp.left

/-- Tokens with gaps between them take their own characters, one after the other. -/
theorem Token.Interleaves.covers {source : Text} {p : Position} {ts : List Token}
    {cs : Text} (h : Token.Interleaves p ts cs) (hp : p.Holds source cs) :
    (∀ t ∈ ts, t.span.Covers source t.text) ∧
      ts.Pairwise fun t u => t.span.stop ≤ u.span.start := by
  induction h with
  | @last p gap _ =>
    refine ⟨List.forall_mem_singleton.mpr ?_, List.pairwise_singleton _ _⟩
    have hend : (p.after gap).Holds source [] := Position.Holds.right (by rwa [List.append_nil])
    exact Span.covers_between hend
  | @cons p gap cs t ts _ _ _ _ hspan hrest ih =>
    obtain ⟨hcovers, hordered⟩ := ih hp.right
    have ht : t.span.Covers source t.text := by
      rw [hspan, Position.after_append]
      exact Span.covers_between hp.left.right
    have hlater : ∀ u ∈ ts, t.span.stop ≤ u.span.start := by
      intro u hu
      have := (hrest.within u hu).1
      rw [hspan, Span.between_stop]
      omega
    exact ⟨List.forall_mem_cons.mpr ⟨ht, hcovers⟩, List.pairwise_cons.mpr ⟨hlater, hordered⟩⟩

end ManifestTree
