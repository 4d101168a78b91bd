import ManifestTree.Proofs.ScanLayout
import Mathlib

/-!
# The scanner accounts for every character

`Token.Accounts` says what the tokens and comments of a source leave out: white space between them
and within the regions of heredocs, and nothing else.  It holds of every scan, since a scan lays
its source out in stretches.
-/

namespace ManifestTree

open Text

/-! ## Bodies and their tokens -/

/-- The region of the body holds the character at an offset. -/
def HeredocBody.Takes (b : HeredocBody) (i : Nat) : Prop :=
  b.span.start ≤ i ∧ i < b.resume.offset

instance (b : HeredocBody) (i : Nat) : Decidable (b.Takes i) := by
  unfold HeredocBody.Takes
  infer_instance

/-- A token, or a heredoc token with the body it waited for. -/
inductive Token.Attached (bodies : List HeredocBody) : Token → Token → Prop
  | same (t : Token) : Token.Attached bodies t t
  | body {text : Text} {span : Span} {tag : HeredocTag} {b : HeredocBody} : b ∈ bodies →
      Token.Attached bodies (.mk .heredoc text span (.heredoc tag none))
        (.mk .heredoc text span (.heredoc tag (some b)))

namespace ScanState

theorem attachBodies_attached {ts : List Token} {bodies bs : List HeredocBody}
    (h : ∀ t ∈ ts, t.Fresh) (hbs : bs ⊆ bodies) :
    List.Forall₂ (Token.Attached bodies) ts (attachBodies ts bs) := by
  induction ts generalizing bs with
  | nil => exact .nil
  | cons t ts ih =>
    obtain ⟨kind, text, span, detail⟩ := t
    have hts := fun u hu => h u (List.mem_cons_of_mem _ hu)
    by_cases hk : kind = .heredoc
    · subst hk
      obtain ⟨tag, hd⟩ := (h _ List.mem_cons_self).waiting rfl
      obtain rfl : detail = .heredoc tag none := hd
      cases bs with
      | nil => exact .cons (.same _) (ih hts hbs)
      | cons b bs =>
        exact .cons (.body (hbs List.mem_cons_self))
          (ih hts fun c hc => hbs (List.mem_cons_of_mem _ hc))
    · rw [attachBodies]
      · exact .cons (.same _) (ih hts hbs)
      · simp [hk]

/-- As many bodies as heredocs all find their token, in the same order. -/
theorem attachBodies_bodies {ts : List Token} {bodies : List HeredocBody}
    (h : ∀ t ∈ ts, t.Fresh) (hlen : ts.countP (fun t => t.kind = .heredoc) = bodies.length) :
    (attachBodies ts bodies).filterMap Token.body? = bodies := by
  induction ts generalizing bodies with
  | nil => simpa [attachBodies, eq_comm] using hlen
  | cons t ts ih =>
    obtain ⟨kind, text, span, detail⟩ := t
    have ht := h _ List.mem_cons_self
    have hts := fun u hu => h u (List.mem_cons_of_mem _ hu)
    by_cases hk : kind = .heredoc
    · subst hk
      obtain ⟨tag, hd⟩ := ht.waiting rfl
      obtain rfl : detail = .heredoc tag none := hd
      cases bodies with
      | nil => simp [Token.kind] at hlen
      | cons b bodies =>
        have := ih hts (by simpa [Token.kind] using hlen)
        simp [attachBodies, Token.body?, Token.detail, this]
    · have hlen : ts.countP (fun t => t.kind = .heredoc) = bodies.length := by
        simpa [Token.kind, hk] using hlen
      have hbodyless := ht.bodyless
      rw [attachBodies]
      · simp [hbodyless, ih hts hlen]
      · simp [hk]

end ScanState

/-! ## What a layout leaves out -/

namespace Stretch

/-- The token or comment that a stretch is. -/
def seen? : Stretch → Option Token
  | .token t => some t
  | .comment t => some t
  | _ => none

end Stretch

variable {source : Text} {c d : Cursor} {xs : List Stretch}

/-- A token or comment of a stretch stands between its cursors. -/
theorem Stretch.Lies.seen {x : Stretch} {t : Token} (h : x.Lies source c d)
    (hc : c.rest ≠ [] → Cursor.At source c) (ht : x.seen? = some t) :
    t.span = Span.between c.pos d.pos ∧ c.offset < d.offset ∧ t.text = t.span.text source := by
  have reads {cs : Text} (hr : c.Reads cs d) (hne : cs ≠ []) :
      c.offset < d.offset ∧ cs = (Span.between c.pos d.pos).text source := by
    refine ⟨?_, (hr.span_text (hc ?_)).symm⟩
    · have := List.length_pos_iff.mpr hne
      rw [hr.offset]
      omega
    · rw [hr.rest]
      exact List.append_ne_nil_of_left_ne_nil hne _
  cases h with
  | blank => cases ht
  | body => cases ht
  | comment hr hk =>
    cases ht
    refine ⟨rfl, reads hr ?_⟩
    rcases hk with ⟨body, rfl, -⟩ | ⟨body, rfl, -⟩ <;> simp [Token.text]
  | token hr hf hspan =>
    cases ht
    exact ⟨hspan, hspan ▸ reads hr hf.nonempty⟩

/-- Stretches do not go back. -/
theorem Laid.offset_le (h : Laid source c xs d) : c.offset ≤ d.offset := by
  obtain ⟨cs, hcs⟩ := h.passes
  rw [hcs.offset]
  omega

theorem Stretch.Lies.offset_le {x : Stretch} (h : x.Lies source c d) : c.offset ≤ d.offset :=
  (Laid.single h).offset_le

/-- What is true of a token or comment between two offsets of the source. -/
structure Token.Stands (source : Text) (a b : Nat) (t : Token) : Prop where
  begins : (a : Int) ≤ t.span.start
  nonempty : t.span.start < t.span.stop
  ends : t.span.stop ≤ b
  text : t.text = t.span.text source

/-- Tokens and comments stand one after the other between the cursors. -/
theorem Laid.seen (h : Laid source c xs d) (hc : c.rest ≠ [] → Cursor.At source c) :
    (∀ t ∈ xs.filterMap Stretch.seen?, t.Stands source c.offset d.offset) ∧
      (xs.filterMap Stretch.seen?).Pairwise fun t u => t.span.stop ≤ u.span.start := by
  induction h with
  | nil => simp
  | @cons c d e x xs hx hxs ih =>
    obtain ⟨cs, hcs⟩ := hx.passes
    obtain ⟨hlater, hordered⟩ := ih fun hne => hcs.at hc hne
    have hcd := hx.offset_le
    have hde := hxs.offset_le
    have hstands : ∀ t ∈ xs.filterMap Stretch.seen?, t.Stands source c.offset e.offset :=
      fun t ht => { hlater t ht with begins := by have := (hlater t ht).begins; omega }
    cases hs : x.seen? with
    | none =>
      rw [List.filterMap_cons_none hs]
      exact ⟨hstands, hordered⟩
    | some t =>
      rw [List.filterMap_cons_some hs]
      obtain ⟨hspan, hlt, htext⟩ := hx.seen hc hs
      have hstart : t.span.start = c.offset := by rw [hspan]; rfl
      have hstop : t.span.stop = d.offset := by rw [hspan]; rfl
      refine ⟨List.forall_mem_cons.mpr ⟨⟨?_, ?_, ?_, htext⟩, hstands⟩,
        List.pairwise_cons.mpr ⟨fun u hu => ?_, hordered⟩⟩
      · omega
      · omega
      · omega
      · rw [hstop]
        exact (hlater u hu).begins

/-- Tokens and comments are the tokens and the comments. -/
theorem seen?_perm (xs : List Stretch) :
    (xs.filterMap Stretch.seen?).Perm
      (xs.filterMap Stretch.token? ++ xs.filterMap Stretch.comment?) := by
  induction xs with
  | nil => exact .nil
  | cons x xs ih =>
    cases x with
    | token t => exact ih.cons t
    | comment t => exact (ih.cons t).trans (List.perm_middle.symm)
    | blank => exact ih
    | body b => exact ih

theorem Stretch.token?_sublist (xs : List Stretch) :
    (xs.filterMap Stretch.token?).Sublist (xs.filterMap Stretch.seen?) := by
  induction xs with
  | nil => exact .slnil
  | cons x xs ih =>
    cases x with
    | token t => exact ih.cons_cons t
    | comment t => exact ih.cons t
    | blank => exact ih
    | body b => exact ih

/-- A region of a heredoc is that of a resolved body. -/
theorem Laid.resolved (h : Laid source c xs d) : ∀ b ∈ xs.filterMap Stretch.body?,
    ∃ e, PendingHeredoc.Resolved source e b ∧ c.offset ≤ e.offset ∧
      b.resume.offset ≤ d.offset := by
  induction h with
  | nil => simp
  | @cons c d e x xs hx hxs ih =>
    have hcd := hx.offset_le
    have later : ∀ b ∈ xs.filterMap Stretch.body?, ∃ e', PendingHeredoc.Resolved source e' b ∧
        c.offset ≤ e'.offset ∧ b.resume.offset ≤ e.offset := by
      intro b hb
      obtain ⟨e', hres, hle, hr⟩ := ih b hb
      exact ⟨e', hres, by omega, hr⟩
    cases hx with
    | body hres =>
      exact List.forall_mem_cons.mpr ⟨⟨c, hres, Nat.le_refl _, hxs.offset_le⟩, later⟩
    | _ => exact later

/-- Every character is that of a token, a comment or white space, or it lies in exactly one
region. -/
theorem Laid.covers (h : Laid source c xs d) (hc : c.rest ≠ [] → Cursor.At source c) {i : Nat}
    (hi : c.offset ≤ i) (hd : i < d.offset) :
    (∃ t ∈ xs.filterMap Stretch.seen?, t.span.Contains i) ∨ SpaceAt source i ∨
      (xs.filterMap Stretch.body?).countP (fun b => b.Takes i) = 1 := by
  induction h with
  | nil => omega
  | @cons c d e x xs hx hxs ih =>
    obtain ⟨cs, hcs⟩ := hx.passes
    have hat : c.rest ≠ [] → Cursor.At source c := hc
    by_cases hid : i < d.offset
    · cases hx with
      | blank hr hw =>
        have hlen := hr.offset
        have hne : c.rest ≠ [] := by simp [hr.rest]
        have := hr.spaceAt (i := 0) (hat hne) _ rfl hw
        have : i = c.offset + 0 := by simp at hlen; omega
        exact .inr (.inl (by rwa [this]))
      | comment hr hk =>
        refine .inl ⟨_, List.mem_cons_self, ?_⟩
        exact Span.contains_between.mpr ⟨hi, hid⟩
      | token hr hf hspan =>
        refine .inl ⟨_, List.mem_cons_self, ?_⟩
        rw [hspan]
        exact Span.contains_between.mpr ⟨hi, hid⟩
      | body hres =>
        rename_i b
        refine .inr (.inr ?_)
        have htakes : b.Takes i := ⟨by rw [hres.starts]; omega, hid⟩
        have hzero : (xs.filterMap Stretch.body?).countP (fun b => b.Takes i) = 0 := by
          refine List.countP_eq_zero.mpr fun b' hb' => ?_
          obtain ⟨e', hres', hle, -⟩ := hxs.resolved b' hb'
          have hstart := hres'.starts
          have : ¬ b'.Takes i := fun h => by
            have := h.1
            omega
          simpa using this
        change ((b :: xs.filterMap Stretch.body?).countP fun b => b.Takes i) = 1
        rw [List.countP_cons, hzero]
        simp [htakes]
    · have hih := ih (fun hne => hcs.at hc hne) (by omega) hd
      cases hx with
      | blank => exact hih
      | comment | token =>
        rcases hih with ⟨t, ht, hcontains⟩ | hih
        · exact .inl ⟨t, List.mem_cons_of_mem _ ht, hcontains⟩
        · exact .inr hih
      | body hres =>
        rename_i b
        rcases hih with hih | hih | hih
        · exact .inl hih
        · exact .inr (.inl hih)
        · have htakes : ¬ b.Takes i := fun h => hid h.2
          refine .inr (.inr ?_)
          change ((b :: xs.filterMap Stretch.body?).countP fun b => b.Takes i) = 1
          rw [List.countP_cons, hih]
          simp [htakes]

/-! ## The account -/

/-- How the tokens and comments of a source account for its characters. -/
structure Token.Accounts (source : Text) (tokens comments : List Token) : Prop where
  /-- One end of input comes last. -/
  ends : ∃ inner p, tokens = inner ++ [Token.endAt p] ∧ ∀ t ∈ inner, t.kind ≠ .endOfInput
  /-- Every token and comment stands in the source, is not empty, and its text is what stands
  there. -/
  stands : ∀ t ∈ tokens.dropLast ++ comments, t.Stands source 0 source.length
  disjoint : (tokens.dropLast ++ comments).Pairwise fun t u =>
    ∀ i, ¬ (t.span.Contains i ∧ u.span.Contains i)
  /-- The tokens with comments are both in order, and the end of input after them. -/
  merged : ∃ items, Token.tokenize source true = .ok (items ++ tokens.getLast?.toList) ∧
    items.Perm (tokens.dropLast ++ comments) ∧
    items.Pairwise fun t u => t.span.start < u.span.start
  /-- Elsewhere is white space, or the region of exactly one resolved heredoc. -/
  covered : ∀ i < source.length, (∀ t ∈ tokens.dropLast ++ comments, ¬ t.span.Contains i) →
    SpaceAt source i ∨ (tokens.filterMap Token.body?).countP (fun b => b.Takes i) = 1
  /-- In a region everything is in a fragment, in the marker or white space. -/
  regions : ∀ b ∈ tokens.filterMap Token.body?, ∀ i, b.Takes i →
    (∀ f ∈ b.fragments, ¬ f.span.Contains i) → ¬ b.marker.span.Contains i → SpaceAt source i
  /-- At any depth the fragments of a string tile the text between its quotes. -/
  strings : ∀ t ∈ tokens ++ (Token.deepAll tokens).flatMap Fragment.tokens, t.kind = .string →
    t.Quoted
  /-- At any depth plain fragments stand for themselves. -/
  contents : ∀ f ∈ Token.deepAll tokens, f.piece = .content →
    f.text ≠ [] ∧ f.value = f.text
  /-- At any depth the tokens of an interpolation have only blanks and comments between them. -/
  interpolations : ∀ f ∈ Token.deepAll tokens, ∀ ts, f.piece = .interpolation ts → f.Encloses ts

/-- Attaching bodies changes neither the kind, the text nor the span of a token. -/
theorem Token.Attached.same_place {bodies : List HeredocBody} {t u : Token}
    (h : Token.Attached bodies t u) : u.kind = t.kind ∧ u.text = t.text ∧ u.span = t.span := by
  cases h <;> exact ⟨rfl, rfl, rfl⟩

theorem Token.Attached.sound {bodies : List HeredocBody} {t u : Token}
    (h : Token.Attached bodies t u) (ht : t.Sound)
    (hb : ∀ b ∈ bodies, ∀ f ∈ b.deepFragments, f.Sound) : u.Sound := by
  cases h with
  | same => exact ht
  | body hmem =>
    refine ⟨by simp [Token.kind], fun f hf => hb _ hmem f ?_⟩
    exact hf

theorem Token.attached_of_mem {bodies : List HeredocBody} {ts us : List Token}
    (h : List.Forall₂ (Token.Attached bodies) ts us) :
    ∀ u ∈ us, ∃ t ∈ ts, Token.Attached bodies t u := by
  induction h with
  | nil => simp
  | cons ha _ ih =>
    refine List.forall_mem_cons.mpr ⟨⟨_, List.mem_cons_self, ha⟩, fun u hu => ?_⟩
    obtain ⟨t, ht, ha⟩ := ih u hu
    exact ⟨t, List.mem_cons_of_mem _ ht, ha⟩

theorem Token.attached_spans {bodies : List HeredocBody} {ts us : List Token}
    (h : List.Forall₂ (Token.Attached bodies) ts us) : us.map Token.span = ts.map Token.span := by
  induction h with
  | nil => rfl
  | cons ha _ ih => rw [List.map_cons, List.map_cons, ih, ha.same_place.2.2]

theorem Token.Attached.stands {bodies : List HeredocBody} {t u : Token} {a b : Nat}
    (h : Token.Attached bodies t u) (ht : t.Stands source a b) : u.Stands source a b := by
  obtain ⟨-, htext, hspan⟩ := h.same_place
  exact ⟨hspan ▸ ht.begins, hspan ▸ ht.nonempty, hspan ▸ ht.ends, by rw [htext, hspan, ht.text]⟩

/-- The tokens of laid stretches stand one after the other, with bodies or without. -/
theorem Laid.attached {bodies : List HeredocBody} {us : List Token} (h : Laid source c xs d)
    (hc : c.rest ≠ [] → Cursor.At source c)
    (ha : List.Forall₂ (Token.Attached bodies) (xs.filterMap Stretch.token?) us) :
    (∀ u ∈ us, u.Stands source c.offset d.offset) ∧
      us.Pairwise fun t u => t.span.stop ≤ u.span.start := by
  obtain ⟨hstands, hordered⟩ := h.seen hc
  refine ⟨fun u hu => ?_, ?_⟩
  · obtain ⟨t, ht, ha⟩ := Token.attached_of_mem ha u hu
    exact ha.stands (hstands t ((seen?_perm xs).mem_iff.mpr (List.mem_append_left _ ht)))
  · have hsub : (xs.filterMap Stretch.token?).Sublist (xs.filterMap Stretch.seen?) :=
      Stretch.token?_sublist xs
    have hspans : ((xs.filterMap Stretch.token?).map Token.span).Pairwise
        fun s u => s.stop ≤ u.start := List.pairwise_map.mpr (hordered.sublist hsub)
    rw [← Token.attached_spans ha] at hspans
    exact List.pairwise_map.mp hspans

theorem Token.endAt_sound (p : Position) : (Token.endAt p).Sound :=
  ⟨by simp [Token.endAt, Token.kind], by
    simp [Token.endAt, Token.deepFragments, TokenDetail.deepFragments]⟩

/-- Spans that are apart hold no character in common. -/
theorem disjoint_of_le {t u : Token} (h : t.span.stop ≤ u.span.start) (i : Nat) :
    ¬ (t.span.Contains i ∧ u.span.Contains i) := by
  rintro ⟨ht, hu⟩
  have := ht.2
  have := hu.1
  omega

/-- Sorting by start puts disjoint tokens in strictly increasing order. -/
theorem mergeSort_starts {source : Text} {ts : List Token}
    (hs : ∀ t ∈ ts, t.Stands source 0 source.length)
    (hd : ts.Pairwise fun t u => ∀ i, ¬ (t.span.Contains i ∧ u.span.Contains i)) :
    (ts.mergeSort fun a b => decide (a.span.start ≤ b.span.start)).Pairwise
      fun t u => t.span.start < u.span.start := by
  have hle : (ts.mergeSort fun a b => decide (a.span.start ≤ b.span.start)).Pairwise
      fun t u => decide (t.span.start ≤ u.span.start) = true :=
    List.pairwise_mergeSort (by simp; omega) (by simp; omega) ts
  have hne : ts.Pairwise fun t u => t.span.start ≠ u.span.start := by
    refine hd.imp_of_mem fun {t u} ht hu h he => h t.span.start.toNat ?_
    have h₁ := hs t ht
    have h₂ := hs u hu
    have := h₁.begins
    have := h₁.nonempty
    have := h₂.nonempty
    refine ⟨⟨?_, ?_⟩, ⟨?_, ?_⟩⟩ <;> omega
  have hperm := List.mergeSort_perm ts fun a b => decide (a.span.start ≤ b.span.start)
  have hne := (hperm.pairwise_iff fun {_ _} h => Ne.symm h).mpr hne
  refine (hle.and hne).imp fun {t u} h => ?_
  have := of_decide_eq_true h.1
  have := h.2
  omega

namespace LaidOut

variable {tokens comments : List Token}

theorem attached (h : LaidOut source xs tokens comments) :
    List.Forall₂ (Token.Attached (xs.filterMap Stretch.body?)) (xs.filterMap Stretch.token?)
      tokens.dropLast := by
  obtain ⟨d, hlaid, -, rfl⟩ := h.laid
  rw [List.dropLast_concat]
  exact ScanState.attachBodies_attached hlaid.fresh (List.Subset.refl _)

/-- The end of input comes last and nowhere else. -/
theorem ends (h : LaidOut source xs tokens comments) :
    ∃ p, tokens = tokens.dropLast ++ [Token.endAt p] ∧
      ∀ t ∈ tokens.dropLast, t.kind ≠ .endOfInput := by
  obtain ⟨d, hlaid, -, htokens⟩ := h.laid
  refine ⟨d.pos, by rw [htokens, List.dropLast_concat], fun t ht => ?_⟩
  obtain ⟨u, hu, ha⟩ := Token.attached_of_mem h.attached t ht
  rw [ha.same_place.1]
  exact (hlaid.fresh u hu).notEnd

/-- A token of a scan that is no end of input comes before it. -/
theorem mem_dropLast (h : LaidOut source xs tokens comments) {t : Token} (ht : t ∈ tokens)
    (hk : t.kind ≠ .endOfInput) : t ∈ tokens.dropLast := by
  obtain ⟨p, hends, -⟩ := h.ends
  rw [hends] at ht
  rcases List.mem_append.mp ht with ht | ht
  · exact ht
  · rw [List.mem_singleton.mp ht] at hk
    exact absurd rfl hk

/-- What is within the tokens of a scan is within those before the end of input. -/
theorem exists_of_deep (h : LaidOut source xs tokens comments) {f : Fragment}
    (hf : f ∈ Token.deepAll tokens) : ∃ t ∈ tokens.dropLast, f ∈ t.deepFragments := by
  obtain ⟨t, ht, hf⟩ := Token.mem_deepAll.mp hf
  obtain ⟨p, hends, -⟩ := h.ends
  rw [hends] at ht
  rcases List.mem_append.mp ht with ht | ht
  · exact ⟨t, ht, hf⟩
  · rw [List.mem_singleton.mp ht] at hf
    simp [Token.endAt, Token.deepFragments, TokenDetail.deepFragments] at hf

/-- Every token is sound, with its body if it is a heredoc. -/
theorem sound (h : LaidOut source xs tokens comments) : ∀ t ∈ tokens, t.Sound := by
  obtain ⟨p, htokens, -⟩ := h.ends
  obtain ⟨d, hlaid, -⟩ := h.laid
  intro t ht
  rw [htokens] at ht
  rcases List.mem_append.mp ht with ht | ht
  · obtain ⟨u, hu, ha⟩ := Token.attached_of_mem h.attached t ht
    refine ha.sound (hlaid.fresh u hu).sound fun b hb => ?_
    obtain ⟨e, hres, -⟩ := hlaid.resolved b hb
    exact hres.sound
  · rw [List.mem_singleton.mp ht]
    exact Token.endAt_sound p

theorem bodies (h : LaidOut source xs tokens comments) :
    tokens.filterMap Token.body? = xs.filterMap Stretch.body? := by
  obtain ⟨d, hlaid, -, rfl⟩ := h.laid
  rw [List.filterMap_append, ScanState.attachBodies_bodies hlaid.fresh h.heredocs]
  exact List.append_nil _

/-- The tokens before the end of input and the comments are those of the layout, but for their
bodies. -/
theorem seen_perm (h : LaidOut source xs tokens comments) :
    ((xs.filterMap Stretch.seen?).map Token.span).Perm
      ((tokens.dropLast ++ comments).map Token.span) := by
  rw [List.map_append, Token.attached_spans h.attached, ← List.map_append, h.comments]
  exact (seen?_perm xs).map Token.span

theorem offset_eq {d : Cursor} (h : Laid source (Cursor.ofSource source) xs d)
    (hd : d.rest = []) : d.offset = source.length := by
  obtain ⟨cs, hcs⟩ := h.passes
  have := hcs.rest
  rw [hd, List.append_nil] at this
  rw [hcs.offset, ← this]
  exact Nat.zero_add _

theorem stands (h : LaidOut source xs tokens comments) :
    ∀ t ∈ tokens.dropLast ++ comments, t.Stands source 0 source.length := by
  obtain ⟨d, hlaid, hrest, -⟩ := h.laid
  have hseen := (hlaid.seen fun _ => Cursor.At.ofSource source).1
  rw [offset_eq hlaid hrest] at hseen
  intro t ht
  rcases List.mem_append.mp ht with ht | ht
  · obtain ⟨u, hu, ha⟩ := Token.attached_of_mem h.attached t ht
    exact ha.stands (hseen u ((seen?_perm xs).mem_iff.mpr (List.mem_append_left _ hu)))
  · rw [h.comments] at ht
    exact hseen t ((seen?_perm xs).mem_iff.mpr (List.mem_append_right _ ht))

theorem disjoint (h : LaidOut source xs tokens comments) :
    (tokens.dropLast ++ comments).Pairwise fun t u =>
      ∀ i, ¬ (t.span.Contains i ∧ u.span.Contains i) := by
  obtain ⟨d, hlaid, -⟩ := h.laid
  have hordered := (hlaid.seen fun _ => Cursor.At.ofSource source).2.imp disjoint_of_le
  have hspans : ((xs.filterMap Stretch.seen?).map Token.span).Pairwise fun s u =>
      ∀ i, ¬ (s.Contains i ∧ u.Contains i) := List.pairwise_map.mpr hordered
  have hmoved : ((tokens.dropLast ++ comments).map Token.span).Pairwise fun s u =>
      ∀ i, ¬ (s.Contains i ∧ u.Contains i) :=
    (h.seen_perm.pairwise_iff fun hst i hc => hst i hc.symm).mp hspans
  exact List.pairwise_map.mp hmoved

theorem covered (h : LaidOut source xs tokens comments) {i : Nat} (hi : i < source.length)
    (hnone : ∀ t ∈ tokens.dropLast ++ comments, ¬ t.span.Contains i) :
    SpaceAt source i ∨ (tokens.filterMap Token.body?).countP (fun b => b.Takes i) = 1 := by
  obtain ⟨d, hlaid, hrest, -⟩ := h.laid
  rw [h.bodies]
  rcases hlaid.covers (fun _ => Cursor.At.ofSource source) (Nat.zero_le i)
    (by rwa [offset_eq hlaid hrest]) with ⟨t, ht, hc⟩ | hspace
  · obtain ⟨u, hu, hspan⟩ := List.mem_map.mp
      (h.seen_perm.mem_iff.mp (List.mem_map_of_mem ht))
    exact absurd (hspan ▸ hc) (hnone u hu)
  · exact hspace

end LaidOut

/-- A scan accounts for every character of its source. -/
theorem Token.scan_accounts {source : Text} {tokens comments : List Token}
    (h : Token.scan source = .ok (tokens, comments)) : Token.Accounts source tokens comments := by
  obtain ⟨xs, hl⟩ := Token.scan_laidOut h
  have hdeep : ∀ f ∈ Token.deepAll tokens, f.Sound := by
    intro f hf
    obtain ⟨t, ht, hf⟩ := Token.mem_deepAll.mp hf
    exact (hl.sound t ht).deep f hf
  constructor
  case ends =>
    obtain ⟨p, htokens, hk⟩ := hl.ends
    exact ⟨_, p, htokens, hk⟩
  case stands => exact hl.stands
  case disjoint => exact hl.disjoint
  case merged =>
    refine ⟨_, ?_, List.mergeSort_perm _ fun a b => decide (a.span.start ≤ b.span.start),
      mergeSort_starts hl.stands hl.disjoint⟩
    simp only [Token.tokenize, h, Bind.bind, Except.bind, if_true]
    rfl
  case covered => exact fun i hi hnone => hl.covered hi hnone
  case regions =>
    rw [hl.bodies]
    intro b hb i htakes hf hm
    obtain ⟨d, hlaid, -⟩ := hl.laid
    obtain ⟨e, hres, -⟩ := hlaid.resolved b hb
    have hi : e.offset ≤ i := by
      have := hres.starts
      have := htakes.1
      omega
    rcases hres.accounted i hi htakes.2 with hmarker | ⟨f, hmem, hcontains⟩ | hspace
    · exact absurd hmarker hm
    · exact absurd hcontains (hf f hmem)
    · exact hspace
  case strings =>
    intro t ht hk
    rcases List.mem_append.mp ht with ht | ht
    · exact (hl.sound t ht).quoted hk
    · obtain ⟨f, hf, ht⟩ := List.mem_flatMap.mp ht
      exact (hdeep f hf).strings t ht hk
  case contents =>
    intro f hf hp
    exact ⟨(hdeep f hf).nonempty, by rw [Fragment.value, hp]⟩
  case interpolations =>
    intro f hf ts hp
    exact (hdeep f hf).encloses ts hp

/-- A string with an interpolation, and a comment. -/
theorem Token.scan_accounts_assignment : ∃ tokens comments,
    Token.scan (Text.ofString "$a = \"b$\x7bc\x7d\" # d\n") = .ok (tokens, comments) ∧
      tokens.length = 4 ∧ comments.length = 1 ∧
      Token.Accounts (Text.ofString "$a = \"b$\x7bc\x7d\" # d\n") tokens comments :=
  ⟨_, _, rfl, rfl, rfl, Token.scan_accounts rfl⟩

end ManifestTree
