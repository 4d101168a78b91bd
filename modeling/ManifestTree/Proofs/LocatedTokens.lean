import ManifestTree.Proofs.SpanRows

/-!
# Tokens at their places

The scanner finds tokens in several ways: one after the other, within the braces of an
interpolation, or in a heredoc body that it jumps to.  `Token.Located` says that a token takes the
characters of the source at its span, and everything within it too.  The tokens of a scan make a row
of such tokens.  The body of a heredoc comes after its tag, since a body is only read for a heredoc
that waits.
-/

namespace ManifestTree

variable {source : Text}

/-! ## Located tokens -/

/-- The fragment stands where its span says, and is as the scanner makes fragments. -/
structure Fragment.Located (source : Text) (f : Fragment) : Prop where
  covers : f.span.Covers source f.text
  sound : ∀ g ∈ f.deep, g.Sound
  regular : ∀ g ∈ f.deep, g.Regular source

/-- The body and its marker stand where their spans say, and so do its fragments. -/
structure HeredocBody.Located (source : Text) (b : HeredocBody) : Prop where
  correct : b.span.Correct source
  nonempty : b.span.start < b.span.stop
  marker : b.marker.span.Covers source b.marker.text ∧ b.marker.text ≠ []
  fragments : ∀ f ∈ b.fragments, f.Located source

/-- The token stands where its span says, and its body after it. -/
structure Token.Located (source : Text) (t : Token) : Prop where
  covers : t.span.Covers source t.text
  nonempty : t.text ≠ []
  sound : t.Sound
  regular : t.Regular source
  body : ∀ b ∈ t.body?, b.Located source ∧ t.span.stop ≤ b.span.start

/-- Located tokens, each of which ends before the next one starts. -/
structure Token.Row (source : Text) (ts : List Token) : Prop where
  located : ∀ t ∈ ts, t.Located source
  ordered : ts.Pairwise fun t u => t.span.stop ≤ u.span.start

theorem Token.Row.spans {ts : List Token} (h : Token.Row source ts) :
    Span.Row source (ts.map Token.span) where
  correct := List.forall_mem_map.mpr fun t ht => (h.located t ht).covers.correct
  nonempty := List.forall_mem_map.mpr fun t ht =>
    (h.located t ht).covers.nonempty (h.located t ht).nonempty
  ordered := List.pairwise_map.mpr h.ordered

theorem Token.Row.of_append {ts us : List Token} (h : Token.Row source (ts ++ us)) :
    Token.Row source ts ∧ Token.Row source us := by
  obtain ⟨hts, hus⟩ := List.forall_mem_append.mp h.located
  obtain ⟨hots, hous, -⟩ := List.pairwise_append.mp h.ordered
  exact ⟨⟨hts, hots⟩, ⟨hus, hous⟩⟩

/-! ## Within tokens -/

/-- The first and the last characters under a span make a row with what stands between them. -/
theorem Span.Covers.bracketed {s : Span} {as bs cs : Text} {ss : List Span}
    (h : s.Covers source (as ++ bs ++ cs)) (has : as ≠ []) (hcs : cs ≠ [])
    (hss : Span.Row source ss)
    (hwithin : ∀ x ∈ ss, s.start + as.length ≤ x.start ∧
      x.stop ≤ s.start + as.length + bs.length) :
    let first := Span.sized s.position as.length
    let last := Span.sized (s.position.after (as ++ bs)) cs.length
    Span.Row source (first :: ss ++ [last]) ∧ Span.hull (first :: ss ++ [last]) = some s := by
  intro first last
  have hfirst : first.Covers source as := by
    show (Span.sized _ _).Covers source as
    rw [Span.sized_eq]
    exact Span.covers_between h.holds.left.left
  have hlast : last.Covers source cs := by
    show (Span.sized _ _).Covers source cs
    rw [Span.sized_eq]
    exact Span.covers_between h.holds.right
  have hstart := h.start_eq
  have hstop := h.stop_eq
  have hfirstStop : first.stop = s.start + as.length := by rw [hstart]; rfl
  have hlastStart : last.start = s.start + as.length + bs.length := by
    show (((s.position.after (as ++ bs)).offset : Nat) : Int) = _
    rw [Position.after_offset, List.length_append]
    omega
  have hlastStop : last.stop = s.stop := by
    show (((s.position.after (as ++ bs)).offset : Nat) : Int) + (cs.length : Nat) = _
    rw [Position.after_offset, hstop]
    simp only [List.length_append]
    omega
  refine ⟨?_, ?_⟩
  · have hfront : Span.Row source ([first] ++ ss) := by
      refine (Span.Row.singleton hfirst.correct (hfirst.nonempty has)).append hss ?_
      refine List.forall_mem_singleton.mpr fun x hx => ?_
      rw [hfirstStop]
      exact (hwithin x hx).1
    refine hfront.append (.singleton hlast.correct (hlast.nonempty hcs)) fun x hx => ?_
    refine List.forall_mem_singleton.mpr ?_
    rcases List.mem_cons.mp hx with rfl | hx
    · omega
    · rw [hlastStart]
      exact (hwithin x hx).2
  · rw [Span.hull_bracketed, Option.some_inj]
    conv_rhs => rw [h.placed]
    show Span.mk _ last.stop _ _ = Span.mk _ _ _ _
    rw [hlastStop, hstop, Position.after_offset]
    rfl

theorem Token.Located.fragments {t : Token} (h : t.Located source) :
    ∀ f ∈ t.fragments, f.Located source := by
  intro f hf
  have hkind : t.kind = .string := by
    rcases h.regular.shape with hd | ⟨hk, -⟩ | ⟨-, tag, body, hd⟩
    · simp [Token.fragments, hd] at hf
    · exact hk
    · simp [Token.fragments, hd] at hf
  obtain ⟨quote, inside, htext, htiles, -⟩ := h.sound.quoted hkind
  have hholds := h.covers.holds
  rw [htext] at hholds
  have hinside : (t.span.position.step quote).Holds source inside :=
    Position.Holds.right (Position.Holds.left hholds :
      t.span.position.Holds source ([quote] ++ inside))
  have hdeep := Token.deep_subset hf
  exact ⟨htiles.covers hinside f hf, fun g hg => h.sound.deep g (hdeep hg),
    fun g hg => h.regular.deep g (hdeep hg)⟩

/-- Tokens with gaps between them are not empty but for the end of input. -/
theorem Token.Interleaves.nonempty {p : Position} {ts : List Token} {cs : Text}
    (h : Token.Interleaves p ts cs) : ∀ t ∈ ts, t.kind ≠ .endOfInput → t.text ≠ [] := by
  induction h with
  | last => exact List.forall_mem_singleton.mpr fun hk => absurd rfl hk
  | cons _ hne _ _ _ _ ih => exact List.forall_mem_cons.mpr ⟨fun _ => hne, ih⟩

/-- No token of an interpolation is a heredoc, so none has a body. -/
theorem Fragment.Located.bodyless {f : Fragment} (h : f.Located source) :
    ∀ t ∈ f.tokens, t.body? = none := by
  intro t ht
  obtain ⟨hk, hshape, -⟩ := (h.regular f f.self_mem_deep).tokens t ht
  rcases hshape with hd | ⟨-, fs, hd⟩ | ⟨hheredoc, -⟩
  · rw [Token.body?, hd]
  · rw [Token.body?, hd]
  · exact absurd hheredoc hk

/-- The tokens of a located interpolation stand in a row before its closing brace, where the end of
input stands. -/
theorem Fragment.Located.interpolation {f : Fragment} {ts : List Token} (h : f.Located source)
    (hp : f.piece = .interpolation ts) :
    ∃ inside us, f.text = [.char '$', .char '\x7b'] ++ inside ++ [.char '\x7d'] ∧
      ts = us ++ [Token.endAt (f.span.position.after ([.char '$', .char '\x7b'] ++ inside))] ∧
      Token.Row source us ∧
      (Token.endAt
        (f.span.position.after ([.char '$', .char '\x7b'] ++ inside))).span.Covers source [] ∧
      ∀ t ∈ us, f.span.start + 2 ≤ t.span.start ∧
        t.span.stop ≤ f.span.start + 2 + inside.length := by
  have hsound := h.sound f f.self_mem_deep
  obtain ⟨inside, htext, hi⟩ := hsound.encloses ts hp
  have hholds := h.covers.holds
  rw [htext] at hholds
  have hinside : (f.span.position.after [.char '$', .char '\x7b']).Holds source inside :=
    Position.Holds.right (Position.Holds.left hholds :
      f.span.position.Holds source ([.char '$', .char '\x7b'] ++ inside))
  obtain ⟨us, hts, hkinds⟩ := hi.ends
  rw [← Position.after_append] at hts
  obtain ⟨hcovers, hordered⟩ := hi.covers hinside
  have hnonempty := hi.nonempty
  have hwithin := hi.within
  rw [hts] at hcovers hordered hnonempty hwithin
  refine ⟨inside, us, htext, hts, ⟨fun t ht => ?_, (List.pairwise_append.mp hordered).1⟩,
    hcovers _ (List.mem_append_right _ List.mem_cons_self), fun t ht => ?_⟩
  · have hmem : t ∈ f.tokens := by
      rw [Fragment.tokens, hp, hts]
      exact List.mem_append_left _ ht
    have hdeep := Fragment.deepFragments_subset hmem
    obtain ⟨hheredoc, hshape, hnumeral, hspelled⟩ := (h.regular f f.self_mem_deep).tokens t hmem
    refine ⟨hcovers t (List.mem_append_left _ ht),
      hnonempty t (List.mem_append_left _ ht) (hkinds t ht),
      ⟨hsound.strings t hmem, fun g hg => h.sound g (hdeep hg)⟩,
      ⟨hshape, hnumeral, hspelled, fun _ _ hd => absurd (hshape.heredoc hd) hheredoc,
        fun g hg => h.regular g (hdeep hg)⟩, fun b hb => ?_⟩
    rw [h.bodyless t hmem] at hb
    cases hb
  · have := hwithin t (List.mem_append_left _ ht)
    rw [Position.after_offset] at this
    rw [h.covers.start_eq]
    simp only [List.length_cons, List.length_nil] at this
    omega

/-! ## Everything within -/

theorem Fragment.Located.deep {f : Fragment} (h : f.Located source) :
    ∀ g ∈ f.deep, g.Located source := by
  refine Fragment.forall_deep (fun f hf t ht => ?_) h
  obtain ⟨inside, us, -, hts, hrow, -⟩ := hf.interpolation (Fragment.piece_of_mem_tokens ht)
  rw [hts] at ht
  rcases List.mem_append.mp ht with ht | ht
  · have hlocated := hrow.located t ht
    exact ⟨hlocated.fragments, fun b hb => (hlocated.body b hb).1.fragments⟩
  · rw [List.mem_singleton.mp ht]
    exact ⟨List.forall_mem_nil _, nofun⟩

theorem Token.Located.deep {t : Token} (h : t.Located source) :
    ∀ f ∈ t.deepFragments, f.Located source := by
  intro f hf
  rcases Token.mem_deepFragments.mp hf with ⟨g, hg, hf⟩ | ⟨b, hb, hf⟩
  · exact (h.fragments g hg).deep f hf
  · obtain ⟨g, hg, hf⟩ := HeredocBody.mem_deepFragments.mp hf
    exact ((h.body b hb).1.fragments g hg).deep f hf

theorem Fragment.Located.tokens {f : Fragment} (h : f.Located source) :
    ∀ t ∈ f.tokens, t.span.Covers source t.text := by
  intro t ht
  obtain ⟨inside, us, -, hts, hrow, hend, -⟩ := h.interpolation (Fragment.piece_of_mem_tokens ht)
  rw [hts] at ht
  rcases List.mem_append.mp ht with ht | ht
  · exact (hrow.located t ht).covers
  · rw [List.mem_singleton.mp ht]
    exact hend

/-! ## Heredoc bodies -/

namespace PendingHeredoc

open Fragments

variable {nested : NestedScan}

/-- The fragments of body lines stand where their spans say. -/
theorem scanLines_covers (hn : nested.Sound) {tag : HeredocTag} {indent : Option Nat}
    {chomp : Bool} {lines : List SourceLine} {resume start stop : Cursor} {fs : List Fragment}
    (hl : LinesTo start lines stop) (hat : Cursor.At source start)
    (hresume : Cursor.At source resume)
    (h : scanLines nested tag indent chomp resume lines = .ok fs) :
    ∀ f ∈ fs, f.span.Covers source f.text := by
  induction hl generalizing resume fs with
  | nil =>
    cases h
    exact List.forall_mem_nil _
  | @cons c d e text more _ hread _ ih =>
    have hd := hread.at hat
    rcases scanLines_cons_cases h with ⟨-, h⟩ | ⟨b, front, last, back, hb, hs, hrest, rfl⟩
    · exact ih hd hresume h
    · have hbat := lineBegin?_at hread hat hresume hb
      obtain ⟨ds, hlast, htiles⟩ := (scan_scanned hn hs).tiles
      exact List.forall_mem_append.mpr
        ⟨htiles.covers (hlast.holds hbat), ih hd (hlast.at hbat) hrest⟩

/-- A resolved body stands where its span says if the fragments in it are regular. -/
theorem Resolved.located {c : Cursor} {b : HeredocBody} (hb : Resolved source c b)
    (hregular : ∀ f ∈ b.deepFragments, f.Regular source) : b.Located source := by
  obtain ⟨nested, pending, hn, htagged, h⟩ := hb.origin
  have hplaced := hb.placed
  have hsound := hb.sound
  obtain ⟨body, line, closing, fs, hsplit, hfs, rfl⟩ := resolve_eq_ok.mp h
  obtain ⟨hlines, hwhole, hclosing⟩ := splitAtClosing?_lines hsplit
  obtain ⟨cs, hcs⟩ := linesTo_reads hlines
  obtain ⟨tail, -, -, hrest⟩ := afterClosing_passes hcs hwhole
  rw [List.append_assoc] at hrest
  obtain ⟨blanks, mid, after, d, e, -, hblanks, hmid, -, hlength, -, -, -, hmarker⟩ :=
    marker_reads hrest hclosing
  have hne : mid ≠ [] := by
    have := List.length_pos_iff.mpr htagged.terminator_ne_nil
    rw [← splitAtClosing?_text hsplit] at this
    exact List.ne_nil_of_length_pos (by omega)
  have hreads := hcs.trans (hblanks.trans hmid)
  -- The terminator is still to come, so the cursor is not at the end of the source.
  have hat : Cursor.At source c := by
    refine hplaced ?_
    rw [hreads.rest]
    simp [hne]
  have hcovers : (marker line closing).span.Covers source mid := by
    have := hmid.holds (hblanks.at (hcs.at hat))
    rw [hmarker]
    show (Span.between d.pos e.pos).Covers source mid
    rw [hmid.pos]
    exact Span.covers_between this
  have hoffsets : c.offset ≤ d.offset := by
    have := (hcs.trans hblanks).offset
    omega
  have hstart : (marker line closing).span.start = d.offset := by rw [hmarker]; rfl
  have hstop := hcovers.nonempty hne
  have hpoint : (Span.between c.pos c.pos).Correct source :=
    (Span.covers_between (hreads.holds hat).nil).correct
  have hbegin : (Span.between c.pos c.pos).start = c.offset := rfl
  refine ⟨hpoint.join hcovers.correct ?_, ?_, ⟨?_, ?_⟩, fun f hf => ?_⟩
  · omega
  · show (c.offset : Int) < (marker line closing).span.stop
    omega
  · rw [hmarker] at hcovers ⊢
    exact hcovers
  · rw [hmarker]
    exact hne
  · have hmem : ∀ g ∈ f.deep, g ∈ (HeredocBody.mk pending.ticket fs closing.trim
        (marker line closing) { Span.between c.pos c.pos with
          stop := (marker line closing).span.stop } (afterClosing line)).deepFragments :=
      fun g hg => HeredocBody.mem_deepFragments.mpr ⟨f, hf, hg⟩
    exact ⟨scanLines_covers hn hlines hat hat hfs f hf, fun g hg => hsound g (hmem g hg),
      fun g hg => hregular g (hmem g hg)⟩

end PendingHeredoc

/-! ## Tags before bodies -/

/-- The tokens that are heredocs. -/
def Token.heredocs (ts : List Token) : List Token := ts.filter fun t => t.kind = .heredoc

theorem Token.heredocs_cons {t : Token} (h : t.kind = .heredoc) (ts : List Token) :
    Token.heredocs (t :: ts) = t :: Token.heredocs ts :=
  List.filter_cons_of_pos (decide_eq_true h)

theorem Token.heredocs_cons_other {t : Token} (h : t.kind ≠ .heredoc) (ts : List Token) :
    Token.heredocs (t :: ts) = Token.heredocs ts :=
  List.filter_cons_of_neg (by simpa using h)

/-- Along timely stretches every heredoc comes before its body, where some heredocs wait before
them. -/
theorem Laid.tags_before {c d : Cursor} {xs : List Stretch} {waiting : List Token}
    (h : Laid source c xs d) (htimely : Stretch.Timely waiting.length xs)
    (hwaiting : ∀ t ∈ waiting, t.span.stop ≤ c.offset) :
    ∀ p ∈ (waiting ++ Token.heredocs (xs.filterMap Stretch.token?)).zip
      (xs.filterMap Stretch.body?), p.1.span.stop ≤ p.2.span.start := by
  induction h generalizing waiting with
  | nil => simp
  | @cons c d e x xs hx hxs ih =>
    have hle : (c.offset : Int) ≤ d.offset := Int.ofNat_le.mpr hx.offset_le
    have hlater : ∀ t ∈ waiting, t.span.stop ≤ d.offset := fun t ht => by
      have := hwaiting t ht
      omega
    cases hx with
    | blank => exact ih htimely hlater
    | comment => exact ih htimely hlater
    | token hr hf hspan =>
      rename_i t
      have htimely : Stretch.Timely (if t.kind = .heredoc then waiting.length + 1 else
          waiting.length) xs := htimely
      show ∀ p ∈ (waiting ++ Token.heredocs (t :: xs.filterMap Stretch.token?)).zip
        (xs.filterMap Stretch.body?), p.1.span.stop ≤ p.2.span.start
      by_cases hk : t.kind = .heredoc
      · rw [if_pos hk] at htimely
        rw [Token.heredocs_cons hk, List.append_cons]
        refine ih (by rwa [List.length_append]) ?_
        refine List.forall_mem_append.mpr ⟨hlater, List.forall_mem_singleton.mpr ?_⟩
        rw [hspan]
        exact Int.le_refl _
      · rw [if_neg hk] at htimely
        rw [Token.heredocs_cons_other hk]
        exact ih htimely hlater
    | body hres =>
      rename_i b
      obtain ⟨hpos, htimely⟩ := htimely
      obtain ⟨t, waiting, rfl⟩ := List.exists_cons_of_length_pos hpos
      obtain ⟨ht, -⟩ := List.forall_mem_cons.mp hwaiting
      have := ih htimely (List.forall_mem_cons.mp hlater).2
      refine List.forall_mem_cons.mpr ⟨?_, this⟩
      rw [hres.starts]
      exact ht

/-- What holds of every heredoc and its body holds of the tokens with their bodies. -/
theorem ScanState.attachBodies_zip {R : Span → HeredocBody → Prop} {ts : List Token}
    {bodies : List HeredocBody} (hfresh : ∀ t ∈ ts, t.Fresh)
    (h : ∀ p ∈ (Token.heredocs ts).zip bodies, R p.1.span p.2) :
    ∀ t ∈ ScanState.attachBodies ts bodies, ∀ b ∈ t.body?, R t.span b := by
  induction ts generalizing bodies with
  | nil => simp [ScanState.attachBodies]
  | cons t ts ih =>
    obtain ⟨kind, text, span, detail⟩ := t
    have ht := hfresh _ List.mem_cons_self
    have hts := fun u hu => hfresh u (List.mem_cons_of_mem _ hu)
    have hbodyless : ∀ b ∈ (Token.mk kind text span detail).body?,
        R (Token.mk kind text span detail).span b := by
      intro b hb
      rw [ht.bodyless] at hb
      cases hb
    by_cases hk : kind = .heredoc
    · subst hk
      obtain ⟨tag, hd⟩ := ht.waiting rfl
      obtain rfl : detail = .heredoc tag none := hd
      rw [Token.heredocs_cons rfl] at h
      cases bodies with
      | nil => exact List.forall_mem_cons.mpr ⟨hbodyless, ih hts (by simp)⟩
      | cons b bodies =>
        obtain ⟨hb, hrest⟩ := List.forall_mem_cons.mp h
        refine List.forall_mem_cons.mpr ⟨fun c hc => ?_, ih hts hrest⟩
        obtain rfl : b = c := by simpa [Token.body?, Token.detail] using hc
        exact hb
    · have hother : (Token.mk kind text span detail).kind ≠ .heredoc := hk
      rw [Token.heredocs_cons_other hother] at h
      rw [ScanState.attachBodies]
      · exact List.forall_mem_cons.mpr ⟨hbodyless, ih hts h⟩
      · simp [hk]

/-! ## Whole sources -/

/-- Tokens and comments of laid stretches stand where their spans say. -/
theorem Laid.located {c d : Cursor} {xs : List Stretch} (h : Laid source c xs d)
    (hc : c.rest ≠ [] → Cursor.At source c) : ∀ t ∈ xs.filterMap Stretch.seen?,
      t.span.Covers source t.text ∧ t.text ≠ [] := by
  induction h with
  | nil => exact List.forall_mem_nil _
  | @cons c d e x xs hx hxs ih =>
    obtain ⟨cs, hcs⟩ := hx.passes
    have hlater := ih fun hne => hcs.at hc hne
    have reads {cs : Text} (hr : c.Reads cs d) (hne : cs ≠ []) :
        (Span.between c.pos d.pos).Covers source cs := by
      rw [hr.pos]
      refine Span.covers_between (hr.holds (hc ?_))
      rw [hr.rest]
      exact List.append_ne_nil_of_left_ne_nil hne _
    cases hx with
    | blank => exact hlater
    | body => exact hlater
    | comment hr hk =>
      rename_i text
      have hne : text ≠ [] := by
        rcases hk with ⟨body, rfl, -⟩ | ⟨body, rfl, -⟩ <;> simp
      exact List.forall_mem_cons.mpr ⟨⟨reads hr hne, hne⟩, hlater⟩
    | token hr hf hspan =>
      refine List.forall_mem_cons.mpr ⟨⟨?_, hf.nonempty⟩, hlater⟩
      rw [hspan]
      exact reads hr hf.nonempty

/-- The tokens of a scan before the end of input make a row, and its comments stand where their
spans say. -/
theorem Token.scan_row {tokens comments : List Token}
    (h : Token.scan source = .ok (tokens, comments)) :
    Token.Row source tokens.dropLast ∧
      ∀ t ∈ comments, t.span.Covers source t.text ∧ t.text ≠ [] := by
  have hregular := Token.scan_regular h
  obtain ⟨xs, hl⟩ := Token.scan_laidOut h
  obtain ⟨d, hlaid, -, htokens⟩ := hl.laid
  have hat : (Cursor.ofSource source).rest ≠ [] → Cursor.At source (Cursor.ofSource source) :=
    fun _ => Cursor.At.ofSource source
  have hseen := hlaid.located hat
  have hordered := (hlaid.attached hat hl.attached).2
  have hdropLast : tokens.dropLast = ScanState.attachBodies (xs.filterMap Stretch.token?)
      (xs.filterMap Stretch.body?) := by rw [htokens, List.dropLast_concat]
  have htimely : Stretch.Timely ([] : List Token).length xs := hl.timely
  have htags := hlaid.tags_before htimely (List.forall_mem_nil _)
  have hafter : ∀ t ∈ tokens.dropLast, ∀ b ∈ t.body?, t.span.stop ≤ b.span.start := by
    rw [List.nil_append] at htags
    rw [hdropLast]
    exact ScanState.attachBodies_zip (R := fun s b => s.stop ≤ b.span.start) hlaid.fresh htags
  refine ⟨⟨fun t ht => ?_, hordered⟩, fun t ht => ?_⟩
  · have hmem := List.dropLast_subset _ ht
    obtain ⟨u, hu, ha⟩ := Token.attached_of_mem hl.attached t ht
    obtain ⟨hkind, htext, hspan⟩ := ha.same_place
    obtain ⟨hcovers, hne⟩ := hseen u ((seen?_perm xs).mem_iff.mpr (List.mem_append_left _ hu))
    refine ⟨?_, ?_, hl.sound t hmem, hregular t hmem, fun b hb => ⟨?_, hafter t ht b hb⟩⟩
    · rw [hspan, htext]
      exact hcovers
    · rw [htext]
      exact hne
    · have hbodies : b ∈ xs.filterMap Stretch.body? := by
        rw [← hl.bodies]
        exact List.mem_filterMap.mpr ⟨t, hmem, hb⟩
      obtain ⟨e, hres, -⟩ := hlaid.resolved b hbodies
      refine hres.located fun f hf => (hregular t hmem).deep f ?_
      exact Token.mem_deepFragments.mpr (.inr ⟨b, hb, hf⟩)
  · rw [hl.comments] at ht
    exact hseen t ((seen?_perm xs).mem_iff.mpr (List.mem_append_right _ ht))

theorem Token.scan_located {tokens comments : List Token}
    (h : Token.scan source = .ok (tokens, comments)) :
    ∀ f ∈ Token.deepAll tokens, f.Located source := by
  obtain ⟨xs, hl⟩ := Token.scan_laidOut h
  intro f hf
  obtain ⟨t, ht, hf⟩ := hl.exists_of_deep hf
  exact ((Token.scan_row h).1.located t ht).deep f hf

end ManifestTree
