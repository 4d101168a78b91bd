import ManifestTree.Proofs.FragmentLines

/-!
# How far heredoc bodies reach

The fragments of a heredoc body begin on the lines before the closing line, in source order and
without overlap.  Only an interpolation can reach the closing line, and only the last fragment can
be such a one.  The lines of a body are found before its interpolations are read, so nothing makes
these end in time.
-/

namespace ManifestTree

open Text

/-! ## Bodies -/

/-- The fragments begin between two offsets, one after the other, and end there unless they are
interpolations. -/
structure Fragment.Extend (lower upper : Nat) (fs : List Fragment) : Prop where
  begins : ∀ f ∈ fs, (lower : Int) ≤ f.span.start ∧ f.span.start < f.span.stop ∧
    f.span.start < upper
  ordered : fs.Pairwise fun f g => f.span.stop ≤ g.span.start
  stays : ∀ f ∈ fs, f.span.stop ≤ upper ∨ ∃ ts, f.piece = .interpolation ts

namespace Fragment.Extend

variable {lower lower' middle upper : Nat} {fs gs : List Fragment}

theorem nil (lower upper : Nat) : Fragment.Extend lower upper [] :=
  ⟨List.forall_mem_nil _, .nil, List.forall_mem_nil _⟩

theorem mono (h : Fragment.Extend lower' upper fs) (hle : lower ≤ lower') :
    Fragment.Extend lower upper fs :=
  ⟨fun f hf => by have := h.begins f hf; omega, h.ordered, h.stays⟩

/-- Fragments that begin where earlier ones end come after them. -/
theorem append (h : Fragment.Extend lower upper fs) (k : Fragment.Extend middle upper gs)
    (hle : lower ≤ middle) (hstop : ∀ f ∈ fs, f.span.stop ≤ middle) :
    Fragment.Extend lower upper (fs ++ gs) where
  begins := List.forall_mem_append.mpr ⟨h.begins, (k.mono hle).begins⟩
  ordered := List.pairwise_append.mpr ⟨h.ordered, k.ordered, fun f hf g hg => by
    have := hstop f hf
    have := (k.begins g hg).1
    omega⟩
  stays := List.forall_mem_append.mpr ⟨h.stays, k.stays⟩

end Fragment.Extend

namespace PendingHeredoc

open Fragments

variable {nested : NestedScan} {source : Text}

/-- The fragments of a line begin neither before the line nor before earlier ones ended. -/
theorem lineBegin?_le {indent : Option Nat} {resume b : Cursor} {line : SourceLine} {stop : Nat}
    (h : lineBegin? indent resume line stop = some b) :
    line.start.offset ≤ b.offset ∧ resume.offset ≤ b.offset := by
  unfold lineBegin? at h
  split at h
  · split at h
    · cases h
    · cases h
      omega
  · split at h
    · rename_i n
      cases h
      have hskip : line.start.offset ≤ (afterMargin n stop line).offset := by
        rw [afterMargin, (Cursor.reads_skip _ _).offset]
        omega
      exact ⟨hskip, by omega⟩
    · cases h
      omega

theorem lineStop_le (chomped : Bool) (line : SourceLine) :
    lineStop chomped line ≤ line.start.offset + line.text.length + 1 := by
  unfold lineStop
  dsimp only
  split
  · split <;> omega
  · omega

/-- The fragments of one line begin on it, and all but interpolations end on it. -/
theorem scan_extend (hn : nested.Sound) {escapes : Text} {interpolate chomped : Bool}
    {line : SourceLine} {b d last : Cursor} {fs : List Fragment}
    (hline : line.start.Reads (line.text ++ [.char '\n']) d) (hat : Cursor.At source line.start)
    (hb : Cursor.At source b)
    (h : scan nested ⟨escapes, interpolate, .offset (lineStop chomped line)⟩ b = .ok (fs, last)) :
    Fragment.Extend b.offset d.offset fs ∧ ∀ f ∈ fs, f.span.stop ≤ last.offset := by
  have hstop := lineStop_le chomped line
  have hd : d.offset = line.start.offset + line.text.length + 1 := by
    rw [hline.offset, List.length_append, List.length_singleton]
    omega
  have hnewline : source[line.start.offset + line.text.length]? = some (.char '\n') := by
    rw [hline.getElem? hat (by simp)]
    simp
  obtain ⟨ds, hread, htiles⟩ := (scan_scanned hn h).tiles
  rw [List.nil_append] at htiles
  obtain ⟨hbounds, hordered⟩ := htiles.bounds
  have hstands : ∀ f ∈ fs, f.StandsIn source := by
    obtain ⟨before, hsource, hpos⟩ := hb
    refine htiles.standsIn before last.rest ?_ (by simp [hpos, Position.start])
    rw [hsource, hread.rest, List.append_assoc]
  have hbrief : ∀ f ∈ fs, Brief (lineStop chomped line) f := scanFrom_brief rfl (.inl rfl) h
  have hlast : (last.offset : Int) = b.pos.offset + ds.length := by
    rw [hread.offset]
    rfl
  refine ⟨⟨fun f hf => ?_, hordered, fun f hf => ?_⟩, fun f hf => ?_⟩
  · obtain ⟨hlo, hpos, -⟩ := hbounds f hf
    have := (hbrief f hf).1
    exact ⟨hlo, hpos, by omega⟩
  · obtain ⟨hstart, hend | hnl | hi⟩ := hbrief f hf
    · exact .inl (by omega)
    · have := (hstands f hf).stop_le hnewline hnl (by omega)
      exact .inl (by omega)
    · exact .inr hi
  · have := (hbounds f hf).2.2
    omega

/-- The fragments of body lines begin on them, after earlier ones, and all but interpolations end
on them. -/
theorem scanLines_extend (hn : nested.Sound) {tag : HeredocTag} {indent : Option Nat}
    {chomp : Bool} {lines : List SourceLine} {resume start stop : Cursor} {fs : List Fragment}
    (hl : LinesTo start lines stop) (hat : Cursor.At source start)
    (hresume : Cursor.At source resume)
    (h : scanLines nested tag indent chomp resume lines = .ok fs) :
    Fragment.Extend (max start.offset resume.offset) stop.offset fs := by
  induction hl generalizing resume fs with
  | nil =>
    cases h
    exact .nil _ _
  | @cons c d e text more hnl hread hmore ih =>
    have hd := hread.at hat
    have hcd : c.offset ≤ d.offset := by
      rw [hread.offset]
      omega
    have hde : d.offset ≤ e.offset := by
      obtain ⟨cs, hcs⟩ := linesTo_reads hmore
      rw [hcs.offset]
      omega
    rcases scanLines_cons_cases h with ⟨-, h⟩ | ⟨b, front, last, back, hb, hs, hrest, rfl⟩
    · exact (ih hd hresume h).mono (by omega)
    · have hbat := lineBegin?_at hread hat hresume hb
      obtain ⟨hcb, hrb⟩ := lineBegin?_le hb
      obtain ⟨hfront, hlast⟩ := scan_extend hn hread hat hbat hs
      obtain ⟨ds, hlastRead, -⟩ := (scan_scanned hn hs).tiles
      have hback := ih hd (hlastRead.at hbat) hrest
      have hblast : b.offset ≤ last.offset := by
        rw [hlastRead.offset]
        omega
      have hfront : Fragment.Extend (max c.offset resume.offset) e.offset front := by
        refine ⟨fun f hf => ?_, hfront.ordered, fun f hf => ?_⟩
        · have := hfront.begins f hf
          have hcb : c.offset ≤ b.offset := hcb
          omega
        · exact (hfront.stays f hf).imp_left fun h => by omega
      refine hfront.append hback ?_ fun f hf => ?_
      · have hcb : c.offset ≤ b.offset := hcb
        omega
      · have := hlast f hf
        omega

theorem marker_stands {line : SourceLine} {closing : ClosingText} (rest : Text)
    (hrest : line.start.rest = line.text ++ rest) (hc : closingText? line.text = some closing) :
    (marker line closing).span.start = line.start.offset + closing.indent ∧
      (marker line closing).span.stop =
        line.start.offset + closing.indent + (closing.markers + closing.text.length) ∧
      closing.indent + (closing.markers + closing.text.length) ≤ line.text.length := by
  obtain ⟨blanks, mid, after, c, e, htext, hblanks, hmid, hindent, hlength, -, -, -, hmarker⟩ :=
    marker_reads hrest hc
  have hstart : c.pos.offset = line.start.offset + blanks.length := hblanks.offset
  have hstop : e.pos.offset = c.pos.offset + mid.length := hmid.offset
  rw [hmarker]
  refine ⟨?_, ?_, ?_⟩
  · show (c.pos.offset : Int) = _
    omega
  · show (e.pos.offset : Int) = _
    omega
  · rw [htext]
    simp only [List.length_append]
    omega

/-- The closing line holds the terminator. -/
theorem splitAtClosing?_text {terminator : Text} {lines body : List SourceLine}
    {line : SourceLine} {closing : ClosingText}
    (h : splitAtClosing? terminator lines = some (body, line, closing)) :
    closing.text = terminator := by
  induction lines generalizing body with
  | nil => cases h
  | cons l lines ih =>
    have later (h : (splitAtClosing? terminator lines).map (fun p => (l :: p.1, p.2)) =
        some (body, line, closing)) : closing.text = terminator := by
      obtain ⟨⟨body', line', closing'⟩, hp, he⟩ := Option.map_eq_some_iff.mp h
      cases he
      exact ih hp
    unfold splitAtClosing? at h
    split at h
    · split at h
      · cases h
        assumption
      · exact later h
    · exact later h

theorem Tagged.terminator_ne_nil {pending : PendingHeredoc} (h : pending.Tagged) :
    pending.tag.terminator ≠ [] := by
  unfold Tagged HeredocTag.parse at h
  split at h
  · cases h
  split at h
  · cases h
  split at h
  · cases h
  rename_i hterminator
  simp only [Except.ok.injEq] at h
  rw [← h]
  intro hnil
  simp only at hnil
  simp [hnil] at hterminator

/-- Where the parts of a resolved body stand: first the body lines on which its fragments begin,
then the marker, then the place where scanning goes on. -/
structure Placed (b : HeredocBody) : Prop where
  extend : ∃ lower upper : Nat, b.span.start = lower ∧ (upper : Int) ≤ b.marker.span.start ∧
    Fragment.Extend lower upper b.fragments
  starts : b.span.start ≤ b.marker.span.start
  marked : b.marker.span.start < b.marker.span.stop
  resumes : b.marker.span.stop ≤ b.resume.offset

/-- The fragments of a placed body begin in it, before its marker. -/
theorem Placed.begins {b : HeredocBody} (hb : Placed b) : ∀ f ∈ b.fragments,
    b.span.start ≤ f.span.start ∧ f.span.start < f.span.stop ∧
      f.span.start < b.marker.span.start := by
  intro f hf
  obtain ⟨lower, upper, hlower, hupper, hextend⟩ := hb.extend
  have := hextend.begins f hf
  omega

theorem Resolved.placement {c : Cursor} {b : HeredocBody} (hb : Resolved source c b) :
    Placed b := by
  obtain ⟨nested, pending, hn, htagged, h⟩ := hb.origin
  have hat := hb.placed
  obtain ⟨body, line, closing, fs, hsplit, hfs, rfl⟩ := resolve_eq_ok.mp h
  obtain ⟨hlines, hwhole, hclosing⟩ := splitAtClosing?_lines hsplit
  obtain ⟨cs, hcs⟩ := linesTo_reads hlines
  obtain ⟨tail, -, hpasses, hrest⟩ := afterClosing_passes hcs hwhole
  have hresume : (afterClosing line).offset = line.start.offset + (line.text ++ tail).length := by
    have : (afterClosing line).offset = _ := hpasses.offset
    simp only [this, hcs.offset, List.length_append, Nat.add_assoc]
  have hterminator : 0 < closing.text.length := by
    rw [splitAtClosing?_text hsplit]
    exact List.length_pos_iff.mpr htagged.terminator_ne_nil
  obtain ⟨hstart, hstop, hlen⟩ := marker_stands
    (tail ++ (c.jump (afterClosing line)).rest) (by rw [hrest, List.append_assoc]) hclosing
  have hcline := hcs.offset
  refine ⟨⟨c.offset, line.start.offset, rfl, ?_, ?_⟩, ?_, ?_, ?_⟩
  · show (line.start.offset : Int) ≤ (marker line closing).span.start
    omega
  · cases hlines with
    | nil =>
      cases hfs
      exact .nil _ _
    | cons hnl hread hmore =>
      have hat := hat (by rw [hread.rest]; simp)
      exact (scanLines_extend hn (.cons hnl hread hmore) hat hat hfs).mono (by omega)
  · show (c.offset : Int) ≤ (marker line closing).span.start
    omega
  · show (marker line closing).span.start < (marker line closing).span.stop
    omega
  · show (marker line closing).span.stop ≤ (afterClosing line).offset
    rw [hresume, List.length_append]
    omega

/-- Where tokens stand outside of a body, its marker and the space up to where scanning goes on, the
fragments end before the marker just if they share no character with the marker or with a token. -/
theorem Placed.apart_iff {b : HeredocBody} (hb : Placed b) {tokens : List Token}
    (houtside : ∀ t ∈ tokens, ∀ i, t.span.Contains i →
      (i : Int) < b.span.start ∨ (b.resume.offset : Int) ≤ i) :
    (∀ f ∈ b.fragments, f.span.stop ≤ b.marker.span.start) ↔
      ∀ f ∈ b.fragments, ∀ i, f.span.Contains i →
        ¬ b.marker.span.Contains i ∧ ∀ t ∈ tokens, ¬ t.span.Contains i := by
  have hbegins := hb.begins
  have hmarked := hb.marked
  have hresumes := hb.resumes
  obtain ⟨lower, -, hlower, -⟩ := hb.extend
  constructor
  · intro hstays f hf i hi
    have hbegin := hbegins f hf
    have hstop := hstays f hf
    obtain ⟨hstart, hlt⟩ := hi
    refine ⟨fun hm => ?_, fun t ht hti => ?_⟩
    · have := hm.1
      omega
    · have := houtside t ht i hti
      omega
  · intro happart f hf
    by_contra hlt
    have hbegin := hbegins f hf
    -- A fragment that reaches the marker shares its first character.
    have hstart : (b.marker.span.start.toNat : Int) = b.marker.span.start := by omega
    have hi : f.span.Contains b.marker.span.start.toNat := ⟨by omega, by omega⟩
    exact (happart f hf _ hi).1 ⟨by omega, by omega⟩

end PendingHeredoc

/-! ## What interpolations hold -/

/-- Tokens with gaps between them stand within the characters they take. -/
theorem Token.Interleaves.within {p : Position} {ts : List Token} {cs : Text}
    (h : Token.Interleaves p ts cs) : ∀ t ∈ ts, (p.offset : Int) ≤ t.span.start ∧
      t.span.stop = t.span.start + t.text.length ∧ t.span.stop ≤ p.offset + cs.length := by
  induction h with
  | @last p gap _ =>
    refine List.forall_mem_singleton.mpr ?_
    have hstart : (Token.endAt (p.after gap)).span.start = (p.after gap).offset := rfl
    have hstop : (Token.endAt (p.after gap)).span.stop = (p.after gap).offset + (0 : Nat) := rfl
    have htext : (Token.endAt (p.after gap)).text = [] := rfl
    rw [hstart, hstop, htext, Position.after_offset, List.length_nil]
    omega
  | @cons p gap cs t ts _ _ _ _ hspan _ ih =>
    refine List.forall_mem_cons.mpr ⟨?_, fun u hu => ?_⟩
    · rw [hspan, Span.between_start, Span.between_stop, Position.after_offset,
        Position.after_offset]
      simp only [List.length_append]
      omega
    · have := ih u hu
      rw [Position.after_offset] at this
      simp only [List.length_append] at this ⊢
      omega

namespace Fragment

theorem piece_of_mem_tokens {f : Fragment} {t : Token} (ht : t ∈ f.tokens) :
    f.piece = .interpolation f.tokens := by
  obtain ⟨text, span, piece⟩ := f
  cases piece with
  | interpolation ts => rfl
  | _ => simp [Fragment.tokens, Fragment.piece] at ht

theorem Sound.tokens_within {f : Fragment} (hf : f.Sound) {t : Token} (ht : t ∈ f.tokens) :
    f.span.start ≤ t.span.start ∧ t.span.stop = t.span.start + t.text.length ∧
      t.span.stop ≤ f.span.stop := by
  obtain ⟨inside, htext, hi⟩ := hf.encloses _ (piece_of_mem_tokens ht)
  have hstart : f.span.start = f.span.position.offset := by
    conv_lhs => rw [hf.placed]
    rfl
  have hstop : f.span.stop = f.span.position.offset + f.text.length := by
    conv_lhs => rw [hf.placed]
    simp
  have hlen : f.text.length = inside.length + 3 := by
    rw [htext]
    simp
  have := hi.within t ht
  rw [Position.after_offset] at this
  simp only [List.length_cons, List.length_nil] at this
  omega

/-- At any depth the fragments and tokens within a fragment stand within it. -/
theorem deep_within {source : Text} {f : Fragment} (hs : ∀ g ∈ f.deep, g.Sound)
    (hr : ∀ g ∈ f.deep, g.Regular source) :
    ∀ g ∈ f.deep, (f.span.start ≤ g.span.start ∧ g.span.stop ≤ f.span.stop) ∧
      ∀ t ∈ g.tokens, f.span.start ≤ t.span.start ∧ t.span.stop ≤ f.span.stop := by
  have hdeep : ∀ g ∈ f.deep, (∀ x ∈ g.deep, x.Sound ∧ x.Regular source) ∧
      f.span.start ≤ g.span.start ∧ g.span.stop ≤ f.span.stop := by
    refine Fragment.forall_deep (fun g hg t ht => ?_)
      ⟨fun x hx => ⟨hs x hx, hr x hx⟩, Int.le_refl _, Int.le_refl _⟩
    obtain ⟨hall, hfirst, hlast⟩ := hg
    obtain ⟨hsound, hregular⟩ := hall g g.self_mem_deep
    obtain ⟨hkind, hshape, -⟩ := hregular.tokens t ht
    have hwithin := hsound.tokens_within ht
    rcases hshape with hplain | ⟨hstring, fs, hfs⟩ | ⟨hheredoc, -⟩
    · simp [Token.fragments, Token.body?, hplain]
    · refine ⟨fun h hmem => ⟨fun x hx => ?_, ?_⟩, by simp [Token.body?, hfs]⟩
      · exact hall x (Fragment.deepFragments_subset ht (Token.deep_subset hmem hx))
      -- The fragment stands in a string between its quotes.
      obtain ⟨quote, inside, htext, htiles, -⟩ := hsound.strings t ht hstring
      have hbounds := htiles.bounds.1 h hmem
      have hlen : t.text.length = inside.length + 2 := by
        rw [htext]
        simp
      have hoffset : (t.span.position.offset : Int) = t.span.start.toNat := rfl
      rw [Position.step_offset] at hbounds
      have hstart : 0 ≤ g.span.start := by
        rw [hsound.placed]
        exact Int.natCast_nonneg _
      omega
    · exact absurd hheredoc hkind
  intro g hg
  obtain ⟨hall, hfirst, hlast⟩ := hdeep g hg
  refine ⟨⟨hfirst, hlast⟩, fun t ht => ?_⟩
  have := (hall g g.self_mem_deep).1.tokens_within ht
  omega

end Fragment

/-! ## Bodies among the tokens -/

/-- No token or comment stands in the region of a heredoc. -/
theorem Laid.seen_body_apart {source : Text} {c d : Cursor} {xs : List Stretch}
    (h : Laid source c xs d) (hc : c.rest ≠ [] → Cursor.At source c) :
    ∀ t ∈ xs.filterMap Stretch.seen?, ∀ b ∈ xs.filterMap Stretch.body?,
      t.span.stop ≤ b.span.start ∨ (b.resume.offset : Int) ≤ t.span.start := by
  induction h with
  | nil => exact List.forall_mem_nil _
  | @cons c d e x xs hx hxs ih =>
    obtain ⟨cs, hcs⟩ := hx.passes
    have hd : d.rest ≠ [] → Cursor.At source d := fun hne => hcs.at hc hne
    have hrest := ih hd
    have before {t : Token} (hspan : t.span = Span.between c.pos d.pos) :
        ∀ b ∈ xs.filterMap Stretch.body?,
          t.span.stop ≤ b.span.start ∨ (b.resume.offset : Int) ≤ t.span.start := by
      intro b hb
      obtain ⟨e', hres, hle, -⟩ := hxs.resolved b hb
      refine .inl ?_
      rw [hspan, hres.starts, Span.between_stop]
      exact Int.ofNat_le.mpr hle
    cases hx with
    | blank => exact hrest
    | comment => exact List.forall_mem_cons.mpr ⟨before rfl, hrest⟩
    | token hr hf hspan => exact List.forall_mem_cons.mpr ⟨before hspan, hrest⟩
    | body hres =>
      refine fun t ht => List.forall_mem_cons.mpr ⟨.inr ?_, hrest t ht⟩
      exact ((hxs.seen hd).1 t ht).begins

/-- The tokens of a scan stand outside of the regions of its heredocs. -/
theorem LaidOut.outside {source : Text} {xs : List Stretch} {tokens comments : List Token}
    (hl : LaidOut source xs tokens comments) {b : HeredocBody}
    (hb : b ∈ xs.filterMap Stretch.body?) : ∀ t ∈ tokens, ∀ i, t.span.Contains i →
      (i : Int) < b.span.start ∨ (b.resume.offset : Int) ≤ i := by
  intro t ht i hi
  obtain ⟨hstart, hstop⟩ := hi
  obtain ⟨d, hlaid, -⟩ := hl.laid
  obtain ⟨p, htokens, -⟩ := hl.ends
  rw [htokens] at ht
  rcases List.mem_append.mp ht with ht | ht
  · obtain ⟨u, hu, ha⟩ := Token.attached_of_mem hl.attached t ht
    have hseen := (Stretch.token?_sublist xs).subset hu
    have hapart := hlaid.seen_body_apart (fun _ => Cursor.At.ofSource source) u hseen b hb
    rw [← ha.same_place.2.2] at hapart
    omega
  · -- The token at the end holds no character.
    rw [List.mem_singleton.mp ht] at hstart hstop
    have hempty : (Token.endAt p).span.stop = (Token.endAt p).span.start + (0 : Nat) := rfl
    omega

/-- Where the fragments of a heredoc body stand among the tokens of its source. -/
structure HeredocBody.Contained (tokens : List Token) (b : HeredocBody) : Prop where
  /-- Every fragment begins on the body lines. -/
  begins : ∀ f ∈ b.fragments, b.span.start ≤ f.span.start ∧ f.span.start < f.span.stop ∧
    f.span.start < b.marker.span.start
  /-- The fragments are in source order without overlap. -/
  ordered : b.fragments.Pairwise fun f g => f.span.stop ≤ g.span.start
  /-- Every fragment ends before the marker, unless it is the last one and an interpolation. -/
  stays : ∀ f ∈ b.fragments, f.span.stop ≤ b.marker.span.start ∨
    ((∃ ts, f.piece = .interpolation ts) ∧ b.fragments.getLast? = some f)
  /-- At any depth the tokens of interpolations stand within the fragment. -/
  nested : ∀ f ∈ b.fragments, ∀ g ∈ f.deep, ∀ t ∈ g.tokens,
    f.span.start ≤ t.span.start ∧ t.span.stop ≤ f.span.stop
  /-- All fragments end before the marker just if they share no character with the marker or with
  a token. -/
  apart : (∀ f ∈ b.fragments, f.span.stop ≤ b.marker.span.start) ↔
    ∀ f ∈ b.fragments, ∀ i, f.span.Contains i →
      ¬ b.marker.span.Contains i ∧ ∀ t ∈ tokens, ¬ t.span.Contains i

/-- Of a list in which each element precedes the later ones, an element that comes before none is
the last. -/
theorem getLast?_of_pairwise {α : Type} {R : α → α → Prop} {xs : List α} (h : xs.Pairwise R)
    {x : α} (hx : x ∈ xs) : xs.getLast? = some x ∨ ∃ y ∈ xs, R x y := by
  obtain ⟨before, after, rfl⟩ := List.append_of_mem hx
  cases after with
  | nil => exact .inl List.getLast?_concat
  | cons y after =>
    have hy := (List.pairwise_cons.mp (List.pairwise_append.mp h).2.1).1 y List.mem_cons_self
    exact .inr ⟨y, by simp, hy⟩

/-- The fragments of the heredoc bodies of a scan stay before the markers but for interpolations
that run past them. -/
theorem Token.scan_contained {source : Text} {tokens comments : List Token}
    (h : Token.scan source = .ok (tokens, comments)) :
    ∀ b ∈ tokens.filterMap Token.body?, b.Contained tokens := by
  have hregular : ∀ t ∈ tokens, t.Regular source := by
    have hscan := Token.scan_scans source
    rwa [h] at hscan
  obtain ⟨xs, hl⟩ := Token.scan_laidOut h
  intro b hb
  obtain ⟨t, ht, hbt⟩ := List.mem_filterMap.mp hb
  have hb' := hb
  rw [hl.bodies] at hb'
  obtain ⟨d, hlaid, -⟩ := hl.laid
  obtain ⟨e, hres, -⟩ := hlaid.resolved b hb'
  have hplaced := hres.placement
  obtain ⟨lower, upper, hlower, hupper, hextend⟩ := hplaced.extend
  refine ⟨hplaced.begins, hextend.ordered, fun f hf => ?_, fun f hf g hg => ?_,
    hplaced.apart_iff (hl.outside hb')⟩
  · rcases hextend.stays f hf with hstop | hinterpolation
    · exact .inl (by omega)
    rcases getLast?_of_pairwise hextend.ordered hf with hlast | ⟨g, hg, hle⟩
    · exact .inr ⟨hinterpolation, hlast⟩
    · have := (hplaced.begins g hg).2.2
      exact .inl (by omega)
  · have hdeep := Token.body_deep_subset hbt hf
    exact (Fragment.deep_within (fun x hx => (hl.sound t ht).deep x (hdeep hx))
      (fun x hx => (hregular t ht).deep x (hdeep hx)) g hg).2

/-- A heredoc whose interpolation ends on its line. -/
theorem Token.scan_contained_greeting : ∃ tokens comments,
    Token.scan (Text.ofString "$x = @(\"END\")\nHi $\x7bname\x7d\nEND\n") = .ok (tokens, comments) ∧
      (tokens.filterMap Token.body?).map (fun b => b.fragments.length) = [3] ∧
      ∀ b ∈ tokens.filterMap Token.body?, b.Contained tokens := by
  have hrun : (Token.scan (Text.ofString "$x = @(\"END\")\nHi $\x7bname\x7d\nEND\n")).toOption.map
      (fun p => (p.1.filterMap Token.body?).map fun b => b.fragments.length) = some [3] := by cbv
  obtain ⟨⟨tokens, comments⟩, hscan, hbodies⟩ := exists_ok_of_map hrun
  exact ⟨tokens, comments, hscan, hbodies, Token.scan_contained hscan⟩

/-- An interpolation that runs past the closing line takes a character of the marker, and one of the
brace that comes after it as a token. -/
theorem Token.scan_overrun : ∃ tokens comments,
    Token.scan (Text.ofString "$x = @(\"END\")\n$\x7b\nEND\n\x7d\n") = .ok (tokens, comments) ∧
      ∃ b ∈ tokens.filterMap Token.body?, ∃ f ∈ b.fragments,
        (f.span.Contains 18 ∧ b.marker.span.Contains 18) ∧
        ∃ t ∈ tokens, f.span.Contains 21 ∧ t.span.Contains 21 := by
  have hrun : (Token.scan (Text.ofString "$x = @(\"END\")\n$\x7b\nEND\n\x7d\n")).toOption.map
      (fun p => (p.1.filterMap Token.body?).any fun b => b.fragments.any fun f =>
        (decide (f.span.Contains 18) && decide (b.marker.span.Contains 18)) &&
          p.1.any fun t => decide (f.span.Contains 21) && decide (t.span.Contains 21)) =
      some true := by cbv
  obtain ⟨⟨tokens, comments⟩, hscan, hshared⟩ := exists_ok_of_map hrun
  obtain ⟨b, hb, hshared⟩ := List.any_eq_true.mp hshared
  exact ⟨tokens, comments, hscan, b, hb, by simpa using hshared⟩

end ManifestTree
