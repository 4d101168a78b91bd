import ManifestTree.Proofs.ScanCoverage
import ManifestTree.Proofs.ScanSettling

/-!
# Fragments and the ends of lines

A character, a variable or an escape does not go past the end of its line.  So when a text is read
up to a place in it, each of its fragments begins before that place and goes on past it at most to
the end of the line, unless it is an interpolation.
-/

namespace ManifestTree

open Text

/-! ## Fragments that stay on their line -/

namespace Lexeme

theorem newline_not_mem_of_all {p : CodePoint → Bool} (hp : p '\n' = false) {cs : Text}
    (h : ∀ c ∈ cs, p c) : .char '\n' ∉ cs := by
  intro hmem
  have := h _ hmem
  rw [hp] at this
  cases this

/-- A variable holds no line feed. -/
theorem variableLength?_noNewline {cs : Text} {n : Nat}
    (h : variableLength? cs = some n) : .char '\n' ∉ cs.take n := by
  obtain ⟨name, htake, hname⟩ := variableLength?_scoped h
  have hnot : ¬ (isWord '\n' ∨ CodePoint.char '\n' = ':') := by decide
  rw [htake, List.mem_cons, not_or]
  exact ⟨by decide, fun hmem => hnot (hname.mem _ hmem)⟩

/-- The digits of a Unicode escape hold no line feed. -/
theorem unicodeDigits?_noNewline {cs digits : Text} {n : Nat}
    (h : unicodeDigits? cs = some (n, digits)) : .char '\n' ∉ cs.take n := by
  have hhex : isHexDigit '\n' = false := by decide
  unfold unicodeDigits? at h
  split at h
  · rename_i rest
    dsimp only at h
    split at h
    · rename_i hd
      cases h
      simp only [Bool.and_eq_true, decide_eq_true_eq] at hd
      obtain ⟨after, hafter⟩ := List.head?_eq_some_iff.mp hd.2
      have hrest : rest = rest.takeWhile isHexDigit ++ .char '\x7d' :: after := by
        rw [← hafter, List.prefix_iff_eq_append.mp (List.takeWhile_prefix _)]
      have htake : (.char '\x7b' :: rest).take ((rest.takeWhile isHexDigit).length + 2) =
          .char '\x7b' :: rest.takeWhile isHexDigit ++ [.char '\x7d'] := by
        generalize rest.takeWhile isHexDigit = digits at hrest
        subst hrest
        simp [List.take_append]
      rw [htake]
      have := newline_not_mem_of_all hhex fun c hc => List.mem_takeWhile_imp (l := rest) hc
      simpa using this
    · cases h
  · dsimp only at h
    split at h
    · rename_i hd
      cases h
      simp only [Bool.and_eq_true, List.all_eq_true] at hd
      exact newline_not_mem_of_all hhex hd.2
    · cases h

/-- Only the last character of an escape can be a line feed. -/
theorem escape?_noNewline {allowed cs : Text} {n : Nat} {value : Text}
    (h : escape? allowed cs = some (n, value)) : .char '\n' ∉ (cs.take n).dropLast := by
  unfold escape? at h
  split at h
  case h_2 => cases h
  case h_1 c cs =>
    split at h
    · cases h
    split at h
    · rename_i hu
      split at h
      · rename_i length digits hd
        obtain ⟨p, -, hp⟩ := Option.map_eq_some_iff.mp h
        cases hp
        have := unicodeDigits?_noNewline hd
        intro hmem
        have := List.dropLast_subset _ hmem
        simp_all
      · cases h
    · cases h
      simp

end Lexeme

/-! ## Places of fragments -/

namespace Fragment

/-- Fragments that tile a text stand in it one after the other. -/
theorem Tiles.bounds {p : Position} {fs : List Fragment} {cs : Text} (h : Tiles p fs cs) :
    (∀ f ∈ fs, (p.offset : Int) ≤ f.span.start ∧ f.span.start < f.span.stop ∧
      f.span.stop ≤ p.offset + cs.length) ∧
      fs.Pairwise fun f g => f.span.stop ≤ g.span.start := by
  induction h with
  | nil => exact ⟨List.forall_mem_nil _, .nil⟩
  | @cons p f fs cs hne hspan _ ih =>
    obtain ⟨hbounds, hordered⟩ := ih
    have hpos := List.length_pos_iff.mpr hne
    have hstart : f.span.start = p.offset := by rw [hspan]; rfl
    have hstop : f.span.stop = p.offset + f.text.length := by rw [hspan]; simp
    have hlater : ∀ g ∈ fs, f.span.stop ≤ g.span.start := by
      intro g hg
      have := (hbounds g hg).1
      rw [Position.after_offset] at this
      omega
    refine ⟨List.forall_mem_cons.mpr ⟨?_, fun g hg => ?_⟩,
      List.pairwise_cons.mpr ⟨hlater, hordered⟩⟩
    · rw [List.length_append]
      omega
    · have := hbounds g hg
      rw [Position.after_offset] at this
      rw [List.length_append]
      omega

/-- The fragment stands in the source where its span says. -/
def StandsIn (source : Text) (f : Fragment) : Prop :=
  ∃ before after, source = before ++ f.text ++ after ∧ f.span.start = before.length ∧
    f.span.stop = before.length + f.text.length

/-- Fragments that tile a part of the source stand in it. -/
theorem Tiles.standsIn {source : Text} {p : Position} {fs : List Fragment} {cs : Text}
    (h : Tiles p fs cs) (before after : Text) (hs : source = before ++ cs ++ after)
    (hp : p.offset = before.length) : ∀ f ∈ fs, f.StandsIn source := by
  induction h generalizing before with
  | nil => exact List.forall_mem_nil _
  | @cons p f fs cs hne hspan _ ih =>
    refine List.forall_mem_cons.mpr ⟨⟨before, cs ++ after, ?_, ?_, ?_⟩, ?_⟩
    · rw [hs]
      simp only [List.append_assoc]
    · rw [hspan, ← hp]
      rfl
    · rw [hspan, ← hp]
      simp
    · exact ih (before ++ f.text) (by rw [hs]; simp only [List.append_assoc])
        (by rw [Position.after_offset, hp, List.length_append])

/-- Where a line feed stands in the source, a fragment that begins no later and holds a line feed
at its end only ends at once. -/
theorem StandsIn.stop_le {source : Text} {f : Fragment} (h : f.StandsIn source) {e : Nat}
    (he : source[e]? = some (.char '\n')) (hnl : .char '\n' ∉ f.text.dropLast)
    (hstart : f.span.start ≤ e) :
    f.span.stop ≤ e + 1 := by
  obtain ⟨before, after, rfl, hbefore, hafter⟩ := h
  by_contra hlt
  obtain ⟨k, rfl⟩ : ∃ k, e = before.length + k := ⟨e - before.length, by omega⟩
  have hk : k < f.text.length - 1 := by omega
  rw [List.append_assoc, List.getElem?_append_right (Nat.le_add_right _ _),
    Nat.add_sub_cancel_left, List.getElem?_append_left (by omega)] at he
  refine hnl (List.mem_iff_getElem?.mpr ⟨k, ?_⟩)
  rwa [List.getElem?_dropLast, if_pos hk]

end Fragment

/-! ## Fragments of a line -/

namespace Fragments

variable {nested : NestedScan}

/-- The fragment begins before an offset and stays before it, or at least holds no line feed but at
its end, or it is an interpolation. -/
def Brief (n : Nat) (f : Fragment) : Prop :=
  f.span.start < n ∧
    (f.span.stop ≤ n ∨ .char '\n' ∉ f.text.dropLast ∨ ∃ ts, f.piece = .interpolation ts)

/-- What comes next goes over the end of a line only if it is an interpolation. -/
theorem Reading.next_noNewline (r : Reading) (c : Cursor) :
    match r.next c with
    | .escape n _ => .char '\n' ∉ (c.upTo (c.skip n)).dropLast
    | .variable n => .char '\n' ∉ (c.upTo (c.skip n)).dropLast
    | _ => True := by
  unfold Reading.next
  by_cases hstop : r.stop.holds c = true
  · rw [if_pos hstop]
    trivial
  rw [if_neg hstop]
  by_cases hend : c.atEnd = true
  · rw [if_pos hend]
    cases r.stop <;> trivial
  rw [if_neg hend]
  unfold Reading.special
  cases he : Lexeme.escape? r.escapes c.rest with
  | some p =>
    dsimp only
    rw [(Cursor.reads_skip c p.1).upTo_eq]
    exact Lexeme.escape?_noNewline he
  | none =>
    dsimp only
    by_cases hi : r.interpolate = true
    · rw [if_pos hi]
      by_cases hp : [.char '$', .char '\x7b'].isPrefixOf c.rest = true
      · rw [if_pos hp]
        trivial
      · rw [if_neg hp]
        cases hv : Lexeme.variableLength? c.rest with
        | none => trivial
        | some n =>
          dsimp only
          rw [(Cursor.reads_skip c n).upTo_eq]
          exact fun hmem => Lexeme.variableLength?_noNewline hv (List.dropLast_subset _ hmem)
    · rw [if_neg hi]
      trivial

theorem content_brief {n : Nat} {run c : Cursor}
    (h : run = c ∨ c.offset ≤ n) : ∀ f ∈ content run c, Brief n f := by
  intro f hf
  unfold content at hf
  split at hf
  · cases hf
  rename_i hlt
  rw [List.mem_singleton.mp hf]
  have hle : c.offset ≤ n := by
    rcases h with rfl | h
    · exact absurd (Nat.le_refl _) hlt
    · exact h
  have hstart : (Fragment.mk (run.upTo c) (run.spanTo c) .content).span.start = run.offset := rfl
  have hstop : (Fragment.mk (run.upTo c) (run.spanTo c) .content).span.stop = c.offset := rfl
  exact ⟨by omega, .inl (by omega)⟩

theorem scanFrom_brief {r : Reading} {n : Nat} (hr : r.stop = .offset n) {fuel : Nat}
    {run c last : Cursor} {fs : List Fragment} (hrun : run = c ∨ c.offset ≤ n)
    (h : scanFrom nested r fuel run c = .ok (fs, last)) : ∀ f ∈ fs, Brief n f := by
  induction fuel generalizing run c fs with
  | zero => cases h
  | succ fuel ih =>
    -- Where the region does not end, the next fragment begins before its end.
    have resumed {f : Fragment} {after : Cursor} (hf : Brief n f)
        (h : (scanFrom nested r fuel after after >>= fun p =>
          .ok (content run c ++ f :: p.1, p.2)) = Except.ok (fs, last)) :
        ∀ f ∈ fs, Brief n f := by
      obtain ⟨⟨more, last'⟩, hm, h⟩ := bind_eq_ok.mp h
      cases h
      exact List.forall_mem_append.mpr ⟨content_brief hrun,
        List.forall_mem_cons.mpr ⟨hf, ih (.inl rfl) hm⟩⟩
    have before_stop (hd : r.next c ≠ .done) : c.offset < n := by
      by_contra hle
      refine hd ?_
      unfold Reading.next
      rw [if_pos]
      simpa [hr, Stop.holds] using hle
    have hnl := r.next_noNewline c
    unfold scanFrom at h
    cases hnext : r.next c with
    | done =>
      simp only [hnext, Except.ok.injEq, Prod.mk.injEq] at h
      obtain ⟨rfl, rfl⟩ := h
      exact content_brief hrun
    | unterminated opener => simp [hnext, reject] at h
    | escape k value =>
      have hlt := before_stop (by simp [hnext])
      simp only [hnext] at h hnl
      refine resumed ?_ h
      exact ⟨Int.ofNat_lt.mpr hlt, .inr (.inl hnl)⟩
    | «variable» k =>
      have hlt := before_stop (by simp [hnext])
      simp only [hnext] at h hnl
      refine resumed ?_ h
      exact ⟨Int.ofNat_lt.mpr hlt, .inr (.inl hnl)⟩
    | interpolation =>
      have hlt := before_stop (by simp [hnext])
      simp only [hnext] at h
      obtain ⟨⟨f, after⟩, hf, h⟩ := bind_eq_ok.mp h
      refine resumed ?_ h
      obtain ⟨⟨ts, brace⟩, -, hf⟩ := bind_eq_ok.mp hf
      cases hf
      exact ⟨Int.ofNat_lt.mpr hlt, .inr (.inr ⟨ts, rfl⟩)⟩
    | plain =>
      have hlt := before_stop (by simp [hnext])
      simp only [hnext] at h
      refine ih (.inr ?_) h
      have hone : (c.skip 1).offset = c.offset + (c.rest.take 1).length :=
        (Cursor.reads_skip c 1).offset
      have := List.length_take_le 1 c.rest
      omega

end Fragments

end ManifestTree
