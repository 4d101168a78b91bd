import ManifestTree.Proofs.ClosingTexts
import ManifestTree.Proofs.Tiles

/-!
# Regions of heredocs

A heredoc body takes the lines from a cursor up to the first closing line and that line too.  Every
character of this region belongs to a fragment or to the marker, or it is white space: a margin, a
chomped line end, or what surrounds the marker.  The argument follows the lines one by one and
keeps track of where the fragments of earlier lines ended, since an interpolation may run on.
-/

namespace ManifestTree

open Text

/-! ## Accounting for characters -/

theorem Fragment.Tiles.contains {p : Position} {fs : List Fragment} {cs : Text}
    (h : Fragment.Tiles p fs cs) {i : Nat} (hp : p.offset ≤ i) (hi : i < p.offset + cs.length) :
    ∃ f ∈ fs, f.span.Contains i := by
  induction h with
  | nil => simp at hi; omega
  | @cons p f fs cs _ hspan _ ih =>
    by_cases hf : i < p.offset + f.text.length
    · refine ⟨f, List.mem_cons_self, ?_⟩
      rw [hspan, Span.contains_between, Position.after_offset]
      exact ⟨hp, hf⟩
    · simp only [List.length_append] at hi
      obtain ⟨g, hg, hc⟩ := ih (by simp; omega) (by simp; omega)
      exact ⟨g, List.mem_cons_of_mem _ hg, hc⟩

/-- White space stands at an offset of the source. -/
def SpaceAt (source : Text) (i : Nat) : Prop := ∃ c ∈ source[i]?, c.isWhitespace

/-- A fragment or white space accounts for the character at an offset. -/
def Accounted (source : Text) (fs : List Fragment) (i : Nat) : Prop :=
  (∃ f ∈ fs, f.span.Contains i) ∨ SpaceAt source i

theorem Accounted.append_left {source : Text} {fs gs : List Fragment} {i : Nat}
    (h : Accounted source fs i) : Accounted source (fs ++ gs) i :=
  h.imp_left fun ⟨f, hf, hc⟩ => ⟨f, List.mem_append_left _ hf, hc⟩

theorem Accounted.append_right {source : Text} {fs gs : List Fragment} {i : Nat}
    (h : Accounted source gs i) : Accounted source (fs ++ gs) i :=
  h.imp_left fun ⟨f, hf, hc⟩ => ⟨f, List.mem_append_right _ hf, hc⟩

/-- White space among the characters read. -/
theorem Cursor.Reads.spaceAt {source cs : Text} {c d : Cursor} {i : Nat} (h : c.Reads cs d)
    (hc : Cursor.At source c) (ch : CodePoint) (hi : cs[i]? = some ch) (hs : ch.isWhitespace) :
    SpaceAt source (c.offset + i) := by
  refine ⟨ch, ?_, hs⟩
  rw [h.getElem? hc (List.getElem?_eq_some_iff.mp hi).1, hi]
  rfl

theorem isWhitespace_of_isBlank {c : CodePoint} (h : isBlank c) : c.isWhitespace := by
  simp only [isBlank, Bool.or_eq_true, decide_eq_true_eq] at h
  rcases h with rfl | rfl <;> rfl

/-! ## Lines -/

/-- Whole lines from one cursor to another. -/
inductive LinesTo : Cursor → List SourceLine → Cursor → Prop
  | nil (c : Cursor) : LinesTo c [] c
  | cons {c d e : Cursor} {text : Text} {more : List SourceLine} : .char '\n' ∉ text →
      c.Reads (text ++ [.char '\n']) d → LinesTo d more e → LinesTo c (⟨c, text⟩ :: more) e

/-- A line that ends with a line feed or with the source. -/
def SourceLine.Whole (line : SourceLine) : Prop :=
  .char '\n' ∉ line.text ∧ (line.start.rest = line.text ∨
    ∃ d, line.start.Reads (line.text ++ [.char '\n']) d)

theorem splitLine_spec (cs : Text) :
    .char '\n' ∉ (splitLine cs).1 ∧
      cs = (splitLine cs).1 ++ ((splitLine cs).2.map (.char '\n' :: ·)).getD [] := by
  induction cs with
  | nil => exact ⟨by simp [splitLine], rfl⟩
  | cons c cs ih =>
    by_cases hc : c = '\n'
    · simp [splitLine, hc]
    · simp only [splitLine, hc, if_false]
      exact ⟨by simpa [eq_comm] using ⟨hc, ih.1⟩, congrArg (c :: ·) ih.2⟩

/-- The lines before the first closing line, and that line. -/
theorem splitAtClosing?_lines {terminator : Text} {c : Cursor} {body : List SourceLine}
    {line : SourceLine} {closing : ClosingText}
    (h : splitAtClosing? terminator c.lines = some (body, line, closing)) :
    LinesTo c body line.start ∧ line.Whole ∧ closingText? line.text = some closing := by
  induction hn : c.rest.length using Nat.strongRecOn generalizing c body with
  | ind n ih =>
    obtain ⟨hnl, hrest⟩ := splitLine_spec c.rest
    unfold Cursor.lines at h
    split at h
    case h_1 text hsplit =>
      -- The last line of the source.
      simp only [hsplit, Option.map_none, Option.getD_none, List.append_nil] at hnl hrest
      simp only [splitAtClosing?, Option.map_none] at h
      split at h
      · split at h
        · cases h
          exact ⟨.nil c, ⟨hnl, .inl hrest⟩, ‹_›⟩
        · cases h
      · cases h
    case h_2 text rest hsplit =>
      simp only [hsplit, Option.map_some, Option.getD_some] at hnl hrest
      have hread : c.Reads (text ++ [.char '\n']) ⟨c.pos.after (text ++ [.char '\n']), rest⟩ :=
        ⟨by simpa using hrest, rfl⟩
      have later {p : List SourceLine × SourceLine × ClosingText}
          (hp : splitAtClosing? terminator
            (Cursor.lines ⟨c.pos.after (text ++ [.char '\n']), rest⟩) = some p)
          (he : (⟨c, text⟩ :: p.1, p.2) = (body, line, closing)) :
          LinesTo c body line.start ∧ line.Whole ∧ closingText? line.text = some closing := by
        obtain ⟨lines, q⟩ := p
        cases he
        obtain ⟨hl, hw, hc⟩ := ih rest.length (by rw [← hn, hrest]; simp; omega) hp rfl
        exact ⟨.cons hnl hread hl, hw, hc⟩
      unfold splitAtClosing? at h
      split at h
      · split at h
        · cases h
          exact ⟨.nil c, ⟨hnl, .inr ⟨_, hread⟩⟩, ‹_›⟩
        · obtain ⟨p, hp, he⟩ := Option.map_eq_some_iff.mp h
          exact later hp he
      · obtain ⟨p, hp, he⟩ := Option.map_eq_some_iff.mp h
        exact later hp he

/-! ## Tags -/

/-- A tag holds the text it was read from. -/
theorem HeredocTag.text_eq {text : Text} {tag : HeredocTag}
    (h : HeredocTag.parse text = .ok tag) : tag.text = text := by
  unfold HeredocTag.parse at h
  split at h
  · cases h
  split at h
  · cases h
  split at h
  · cases h
  · cases h
    rfl

/-- So it is read from its own text. -/
theorem HeredocTag.parse_text {text : Text} {tag : HeredocTag}
    (h : HeredocTag.parse text = .ok tag) : HeredocTag.parse tag.text = .ok tag := by
  rw [HeredocTag.text_eq h, h]

/-! ## Closing lines -/

/-- A closing line is blanks, the markers and the terminator, blanks, and perhaps a carriage
return. -/
theorem closingText?_spec {line : Text} {closing : ClosingText}
    (h : closingText? line = some closing) :
    ∃ blanks mid trailing end_, line = blanks ++ (mid ++ (trailing ++ end_)) ∧
      blanks.length = closing.indent ∧ mid.length = closing.markers + closing.text.length ∧
      closing.text <:+ mid ∧ (∀ c ∈ blanks, isBlank c) ∧ (∀ c ∈ trailing, isBlank c) ∧
      (end_ = [] ∨ end_ = [.char '\r']) := by
  obtain ⟨p, hp, hclosing⟩ := closingText?_reads h
  generalize closing.text = text at hp hclosing ⊢
  subst hclosing
  refine ⟨p.indent, p.margin ++ p.chomp ++ text, p.trailing, p.lineEnd, ?_, rfl, ?_,
    List.suffix_append _ _, hp.indent, hp.trailing, hp.lineEnd⟩
  · rw [hp.line_eq]
    simp only [List.append_assoc]
  · simp only [List.length_append]
    rfl

/-! ## Body lines -/

namespace PendingHeredoc

open Fragments

variable {nested : NestedScan} {source : Text}

/-- From where the fragments of a line stop there is only its line end. -/
theorem spaceAt_of_lineStop (chomped : Bool) (line : SourceLine) {d : Cursor}
    (hline : line.start.Reads (line.text ++ [.char '\n']) d) (hat : Cursor.At source line.start)
    {i : Nat} (hi : lineStop chomped line ≤ i) (hd : i < d.offset) : SpaceAt source i := by
  rw [hline.offset, List.length_append, List.length_singleton] at hd
  by_cases hlf : i = line.start.offset + line.text.length
  · rw [hlf]
    exact hline.spaceAt hat '\n' (by simp) rfl
  -- Before the line feed only a chomped carriage return is left out.
  unfold lineStop at hi
  dsimp only at hi
  split at hi
  · split at hi
    case isTrue hcr =>
      obtain ⟨ys, hys⟩ := List.getLast?_eq_some_iff.mp hcr
      have hlen : line.text.length = ys.length + 1 := by simp [hys]
      have hi' : i = line.start.offset + ys.length := by omega
      rw [hi']
      exact hline.spaceAt hat '\r' (by simp [hys]) rfl
    case isFalse => omega
  · omega

/-- The margin that is cut from a line is blank. -/
theorem afterMargin_reads {indent stop : Nat} {line : SourceLine} {d : Cursor}
    (hline : line.start.Reads (line.text ++ [.char '\n']) d) :
    ∃ ws, line.start.Reads ws (afterMargin indent stop line) ∧ ∀ c ∈ ws, isBlank c := by
  refine ⟨_, Cursor.reads_skip _ _, ?_⟩
  intro c hc
  have hfront : line.start.rest.take
      (min ((line.text.take indent).takeWhile isBlank).length (stop - line.start.offset)) <+:
      (line.text.take indent).takeWhile isBlank := by
    have h₁ : (line.text.take indent).takeWhile isBlank <+: line.start.rest := by
      refine (List.takeWhile_prefix _).trans ((List.take_prefix _ _).trans ?_)
      exact ⟨.char '\n' :: d.rest, by simp [hline.rest]⟩
    rw [List.prefix_iff_eq_take.mp h₁, List.length_take]
    exact List.take_prefix_take_left (by omega)
  exact List.mem_takeWhile_imp (hfront.subset hc)

/-- The fragments of a line begin where earlier ones ended, or after blanks. -/
theorem lineBegin?_spec (indent : Option Nat) (resume : Cursor) (line : SourceLine) (stop : Nat)
    {d : Cursor} (hline : line.start.Reads (line.text ++ [.char '\n']) d) :
    match lineBegin? indent resume line stop with
    | none => stop ≤ resume.offset
    | some b => b = resume ∨ ∃ ws, line.start.Reads ws b ∧ ∀ c ∈ ws, isBlank c := by
  unfold lineBegin?
  by_cases hresume : line.start.offset < resume.offset
  · rw [if_pos hresume]
    by_cases hstop : stop ≤ resume.offset
    · rw [if_pos hstop]
      exact hstop
    · rw [if_neg hstop]
      exact .inl rfl
  · rw [if_neg hresume]
    cases indent with
    | none => exact .inr ⟨[], .refl _, by simp⟩
    | some n => exact .inr (afterMargin_reads hline)

/-- Fragments scanned up to an offset account for what lies before that offset. -/
theorem scan_accounted (hn : nested.Sound) {escapes : Text} {interpolate : Bool}
    {stop : Nat} {b last : Cursor} {fs : List Fragment} (hat : Cursor.At source b)
    (h : scan nested ⟨escapes, interpolate, .offset stop⟩ b = .ok (fs, last)) :
    Cursor.At source last ∧ (∀ f ∈ fs, ∀ g ∈ f.deep, g.Sound) ∧
      (∀ i, b.offset ≤ i → i < last.offset → Accounted source fs i) ∧
      ∀ i, last.offset ≤ i → i < source.length → stop ≤ i := by
  have hscan := scan_scanned hn h
  obtain ⟨ds, hr, ht⟩ := hscan.tiles
  have hlast := hr.at hat
  refine ⟨hlast, hscan.sound, fun i hb hi => .inl (ht.contains hb ?_), fun i hl hi => ?_⟩
  · rw [hr.offset] at hi
    exact hi
  · rcases hscan.stops with hstop | ⟨hend, -⟩
    · exact Nat.le_trans (by simpa [Stop.holds] using hstop) hl
    · have := hlast.offset_add
      simp only [hend, List.length_nil] at this
      omega

/-- Where fragments of a body line begin is a place in the source. -/
theorem lineBegin?_at {indent : Option Nat} {resume b d : Cursor} {line : SourceLine} {stop : Nat}
    (hline : line.start.Reads (line.text ++ [.char '\n']) d) (hat : Cursor.At source line.start)
    (hresume : Cursor.At source resume) (h : lineBegin? indent resume line stop = some b) :
    Cursor.At source b := by
  have hbegin := lineBegin?_spec indent resume line stop hline
  simp only [h] at hbegin
  rcases hbegin with rfl | ⟨ws, hws, -⟩
  · exact hresume
  · exact hws.at hat

/-- A body line is passed, or fragments are scanned from where they begin on it to its end. -/
theorem scanLines_cons_cases {tag : HeredocTag} {indent : Option Nat} {chomp : Bool}
    {line : SourceLine} {more : List SourceLine} {resume : Cursor} {fs : List Fragment}
    (h : scanLines nested tag indent chomp resume (line :: more) = .ok fs) :
    (lineBegin? indent resume line (lineStop (chomp && more.isEmpty) line) = none ∧
      scanLines nested tag indent chomp resume more = .ok fs) ∨
    ∃ b front last back,
      lineBegin? indent resume line (lineStop (chomp && more.isEmpty) line) = some b ∧
      scan nested ⟨tag.escapeSet, tag.interpolates,
        .offset (lineStop (chomp && more.isEmpty) line)⟩ b = .ok (front, last) ∧
      scanLines nested tag indent chomp last more = .ok back ∧ front ++ back = fs := by
  unfold scanLines at h
  dsimp only at h
  split at h
  · exact .inl ⟨‹_›, h⟩
  · rename_i b hb
    obtain ⟨⟨front, last⟩, hfront, h⟩ := bind_eq_ok.mp h
    obtain ⟨back, hback, h⟩ := bind_eq_ok.mp h
    exact .inr ⟨b, front, last, back, hb, hfront, hback, Except.ok.inj h⟩

/-- Body lines are accounted for from where earlier fragments ended. -/
theorem scanLines_accounted (hn : nested.Sound) {tag : HeredocTag} {indent : Option Nat}
    {chomp : Bool} {lines : List SourceLine} {resume start stop : Cursor} {fs : List Fragment}
    (hl : LinesTo start lines stop) (hat : Cursor.At source start)
    (hresume : Cursor.At source resume)
    (h : scanLines nested tag indent chomp resume lines = .ok fs) :
    (∀ f ∈ fs, ∀ g ∈ f.deep, g.Sound) ∧
      ∀ i, start.offset ≤ i → resume.offset ≤ i → i < stop.offset → Accounted source fs i := by
  induction hl generalizing resume fs with
  | nil =>
    cases h
    exact ⟨by simp, by omega⟩
  | @cons c d e text more hnl hread hmore ih =>
    have hd := hread.at hat
    have hdle : d.offset ≤ source.length := by have := hd.offset_add; omega
    have hcases := scanLines_cons_cases h
    generalize (chomp && more.isEmpty) = chomped at hcases
    have hspace {i : Nat} (hi : lineStop chomped ⟨c, text⟩ ≤ i) (hid : i < d.offset) :
        SpaceAt source i :=
      spaceAt_of_lineStop chomped ⟨c, text⟩ hread hat hi hid
    have hbegin := lineBegin?_spec indent resume ⟨c, text⟩ (lineStop chomped ⟨c, text⟩) hread
    rcases hcases with ⟨hb, h⟩ | ⟨b, front, last, back, hb, hs, hrest, rfl⟩
    · simp only [hb] at hbegin
      obtain ⟨hsound, hacc⟩ := ih hd hresume h
      refine ⟨hsound, fun i hc hr he => ?_⟩
      by_cases hid : i < d.offset
      · exact .inr (hspace (by omega) hid)
      · exact hacc i (by omega) hr he
    · simp only [hb] at hbegin
      have hbat := lineBegin?_at hread hat hresume hb
      obtain ⟨hlast, hfront, hbefore, hafter⟩ := scan_accounted hn hbat hs
      obtain ⟨hback, hacc⟩ := ih hd hlast hrest
      refine ⟨fun f hf => (List.mem_append.mp hf).elim (hfront f) (hback f),
        fun i hc hr he => ?_⟩
      -- The character stands in the margin, in a fragment of this line, in its line end, or
      -- on a later line.
      by_cases hib : i < b.offset
      · rcases hbegin with rfl | ⟨ws, hws, hblank⟩
        · omega
        · have hi : i - c.offset < ws.length := by
            rw [hws.offset] at hib
            have : i < c.offset + ws.length := hib
            omega
          have := hws.spaceAt hat _ (List.getElem?_eq_getElem hi)
            (isWhitespace_of_isBlank (hblank _ (List.getElem_mem hi)))
          exact .inr (by rwa [Nat.add_sub_cancel' hc] at this)
      by_cases hil : i < last.offset
      · exact (hbefore i (by omega) hil).append_left
      by_cases hid : i < d.offset
      · exact .inr (hspace (hafter i (by omega) (by omega)) hid)
      · exact (hacc i (by omega) (by omega) he).append_right

/-! ## Whole bodies -/

theorem linesTo_reads {c e : Cursor} {lines : List SourceLine} (h : LinesTo c lines e) :
    ∃ cs, c.Reads cs e := by
  induction h with
  | nil c => exact ⟨[], .refl c⟩
  | cons _ hread _ ih =>
    obtain ⟨cs, hcs⟩ := ih
    exact ⟨_, hread.trans hcs⟩

theorem after_line {p : Position} {text : Text} (h : .char '\n' ∉ text) :
    p.after (text ++ [.char '\n']) = ⟨p.offset + text.length + 1, p.line + 1, 1⟩ := by
  induction text generalizing p with
  | nil => rfl
  | cons c text ih =>
    simp only [List.mem_cons, not_or] at h
    rw [List.cons_append, Position.after_cons, ih h.2]
    simp [Position.step, Ne.symm h.1]
    omega

/-- The place after characters that are read leads to the cursor after them. -/
theorem jump_reads {c d : Cursor} {cs : Text} (h : c.Reads cs d) : c.jump d.pos = d := by
  have ho : d.pos.offset - c.offset = cs.length := by
    have : d.pos.offset = _ := h.offset
    omega
  rw [Cursor.jump, ho, h.rest, List.drop_left]

/-- Scanning goes on after the line feed of the closing line. -/
theorem afterClosing_line {line : SourceLine} {d : Cursor} (hnl : .char '\n' ∉ line.text)
    (hd : line.start.Reads (line.text ++ [.char '\n']) d) : afterClosing line = d.pos := by
  have hskip : line.start.skip (line.text.length + 1) = d := by
    simpa using hd.skip_eq
  have ho : d.pos.offset = line.start.pos.offset + line.text.length + 1 := by
    rw [hd.pos, after_line hnl]
  rw [afterClosing, hskip, hd.pos, after_line hnl]
  simp only [Position.mk.injEq, and_true]
  exact ho

/-- At the end of the source it goes on there, but on the line after. -/
theorem afterClosing_end {line : SourceLine} (hend : line.start.rest = line.text) :
    afterClosing line =
      ⟨line.start.offset + line.text.length, line.start.pos.line + 1, 1⟩ := by
  have h := (Cursor.reads_skip line.start (line.text.length + 1)).offset
  rw [List.take_of_length_le (by simp [hend]), hend] at h
  rw [afterClosing, h]

/-- Scanning goes on after the closing line. -/
theorem afterClosing_passes {c : Cursor} {cs : Text} {line : SourceLine}
    (hcs : c.Reads cs line.start) (hw : line.Whole) :
    ∃ tail, (tail = [] ∨ tail = [.char '\n']) ∧
      c.Passes (cs ++ (line.text ++ tail)) (c.jump (afterClosing line)) ∧
      line.start.rest = line.text ++ tail ++ (c.jump (afterClosing line)).rest := by
  obtain ⟨hnl, hend | ⟨d, hd⟩⟩ := hw
  · have hoffset : (afterClosing line).offset = c.offset + (cs ++ line.text).length := by
      rw [afterClosing_end hend, hcs.offset, List.length_append, Nat.add_assoc]
    have hrest : (c.jump (afterClosing line)).rest = [] := by
      have : c.rest = cs ++ line.text := by rw [hcs.rest, hend]
      rw [Cursor.jump, this]
      exact List.drop_eq_nil_of_le (by rw [hoffset]; omega)
    refine ⟨[], .inl rfl, ⟨?_, ?_, fun h => absurd hrest h⟩, ?_⟩
    · rw [hrest, hcs.rest, hend]
      simp
    · simpa [Cursor.jump, Cursor.offset] using hoffset
    · rw [hrest, hend]
      simp
  · have hread := hcs.trans hd
    rw [afterClosing_line hnl hd, jump_reads hread]
    exact ⟨[.char '\n'], .inr rfl, hread.passes, hd.rest⟩

/-- The closing line is the marker between white space.  The marker is the markers and the
terminator as they stand there. -/
theorem marker_reads {line : SourceLine} {closing : ClosingText} {rest : Text}
    (hrest : line.start.rest = line.text ++ rest) (hc : closingText? line.text = some closing) :
    ∃ blanks mid after d e, line.text = blanks ++ (mid ++ after) ∧
      line.start.Reads blanks d ∧ d.Reads mid e ∧ blanks.length = closing.indent ∧
      mid.length = closing.markers + closing.text.length ∧ closing.text <:+ mid ∧
      (∀ ch ∈ blanks, ch.isWhitespace) ∧ (∀ ch ∈ after, ch.isWhitespace) ∧
      marker line closing = .mk .heredocEnd mid (Span.between d.pos e.pos) .plain := by
  obtain ⟨blanks, mid, trailing, end_, htext, hindent, hmid, hsuffix, hblanks, htrailing, hend⟩ :=
    closingText?_spec hc
  have hwhole : line.start.rest = blanks ++ (mid ++ (trailing ++ end_ ++ rest)) := by
    rw [hrest, htext]
    simp only [List.append_assoc]
  have hread := Cursor.reads_skip_length hwhole
  have hlater : (line.start.skip blanks.length).rest = mid ++ (trailing ++ end_ ++ rest) := by
    have := hread.rest
    rw [hwhole] at this
    exact (List.append_cancel_left this).symm
  have hmarker := Cursor.reads_skip_length hlater
  refine ⟨blanks, mid, trailing ++ end_, _, _, htext, hread, hmarker, hindent, hmid, hsuffix,
    fun ch hch => isWhitespace_of_isBlank (hblanks ch hch), fun ch hch => ?_, ?_⟩
  · rcases List.mem_append.mp hch with hch | hch
    · exact isWhitespace_of_isBlank (htrailing ch hch)
    · rcases hend with rfl | rfl
      · exact absurd hch List.not_mem_nil
      · rw [List.mem_singleton.mp hch]
        rfl
  · rw [marker, ← hindent, ← hmid, hmarker.upTo_eq]
    rfl

/-- The marker and white space account for the closing line. -/
theorem closingLine_accounted {line : SourceLine} {closing : ClosingText} {tail : Text}
    {d : Cursor} (hat : Cursor.At source line.start)
    (hread : line.start.Reads (line.text ++ tail) d) (htail : tail = [] ∨ tail = [.char '\n'])
    (hc : closingText? line.text = some closing) {i : Nat} (hi : line.start.offset ≤ i)
    (hd : i < d.offset) : (marker line closing).span.Contains i ∨ SpaceAt source i := by
  obtain ⟨blanks, mid, after, c, e, htext, hblanks, hmid, -, -, -, hbefore, hafter, hmarker⟩ :=
    marker_reads (by rw [hread.rest, List.append_assoc]) hc
  have hspace : ∀ ch ∈ after ++ tail, ch.isWhitespace := by
    intro ch hch
    rcases List.mem_append.mp hch with hch | hch
    · exact hafter ch hch
    · rcases htail with rfl | rfl
      · exact absurd hch List.not_mem_nil
      · rw [List.mem_singleton.mp hch]
        rfl
  have hspan : (marker line closing).span = Span.between c.pos e.pos := by rw [hmarker]; rfl
  have hstart : c.pos.offset = line.start.offset + blanks.length := hblanks.offset
  have hstop : e.pos.offset = c.pos.offset + mid.length := hmid.offset
  have hwhole : line.text ++ tail = blanks ++ (mid ++ (after ++ tail)) := by
    rw [htext]
    simp only [List.append_assoc]
  rw [hwhole] at hread
  have hlen := hread.offset
  simp only [List.length_append] at hlen
  rw [hspan, Span.contains_between]
  by_cases hb : i - line.start.offset < blanks.length
  · have := hread.spaceAt hat _ (by rw [List.getElem?_append_left hb, List.getElem?_eq_getElem hb])
      (hbefore _ (List.getElem_mem hb))
    exact .inr (by rwa [Nat.add_sub_cancel' hi] at this)
  by_cases hm : i - line.start.offset < blanks.length + mid.length
  · exact .inl (by omega)
  · obtain ⟨k, hk⟩ : ∃ k, i = line.start.offset + (blanks.length + (mid.length + k)) :=
      ⟨i - line.start.offset - blanks.length - mid.length, by omega⟩
    have hlt : k < (after ++ tail).length := by
      rw [List.length_append]
      omega
    refine .inr ?_
    rw [hk]
    refine hread.spaceAt hat _ ?_ (hspace _ (List.getElem_mem hlt))
    rw [List.getElem?_append_right (by omega), Nat.add_sub_cancel_left,
      List.getElem?_append_right (by omega), Nat.add_sub_cancel_left,
      List.getElem?_eq_getElem hlt]

/-- The tag of the heredoc was read from its text. -/
def Tagged (pending : PendingHeredoc) : Prop := HeredocTag.parse pending.tag.text = .ok pending.tag

/-- What a resolved body takes of the source. -/
structure Resolved (source : Text) (c : Cursor) (b : HeredocBody) : Prop where
  placed : c.rest ≠ [] → Cursor.At source c
  origin : ∃ nested, ∃ pending : PendingHeredoc, NestedScan.Sound nested ∧ pending.Tagged ∧
    pending.resolve nested c = .ok b
  starts : b.span.start = c.offset
  passes : ∃ cs, c.Passes cs (c.jump b.resume)
  sound : ∀ f ∈ b.deepFragments, f.Sound
  accounted : ∀ i, c.offset ≤ i → i < b.resume.offset →
    b.marker.span.Contains i ∨ Accounted source b.fragments i

/-- A body is resolved from the lines before a closing line, whose fragments it has. -/
theorem resolve_eq_ok {pending : PendingHeredoc} {c : Cursor} {b : HeredocBody} :
    pending.resolve nested c = .ok b ↔ ∃ body line closing fs,
      splitAtClosing? pending.tag.terminator c.lines = some (body, line, closing) ∧
      scanLines nested pending.tag (if closing.trim.margin then some closing.indent else none)
        closing.trim.chomp c body = .ok fs ∧
      .mk pending.ticket fs closing.trim (marker line closing)
        { Span.between c.pos c.pos with stop := (marker line closing).span.stop }
        (afterClosing line) = b := by
  unfold resolve
  constructor
  · intro h
    split at h
    · cases h
    · rename_i body line closing hsplit
      obtain ⟨fs, hfs, h⟩ := bind_eq_ok.mp h
      exact ⟨body, line, closing, fs, hsplit, hfs, Except.ok.inj h⟩
  · rintro ⟨body, line, closing, fs, hsplit, hfs, rfl⟩
    rw [hsplit]
    exact bind_eq_ok.mpr ⟨fs, hfs, rfl⟩

/-- A resolved body takes whole lines. -/
theorem resolve_passes {pending : PendingHeredoc} {c : Cursor} {b : HeredocBody}
    (h : pending.resolve nested c = .ok b) : ∃ cs, c.Passes cs (c.jump b.resume) := by
  obtain ⟨body, line, closing, fs, hsplit, -, rfl⟩ := resolve_eq_ok.mp h
  obtain ⟨hlines, hwhole, -⟩ := splitAtClosing?_lines hsplit
  obtain ⟨cs, hcs⟩ := linesTo_reads hlines
  obtain ⟨tail, -, hpasses, -⟩ := afterClosing_passes hcs hwhole
  exact ⟨_, hpasses⟩

theorem resolve_resolved (hn : nested.Sound) {pending : PendingHeredoc} {c : Cursor}
    {b : HeredocBody} (htagged : pending.Tagged) (hat : c.rest ≠ [] → Cursor.At source c)
    (h : pending.resolve nested c = .ok b) : Resolved source c b := by
  have horigin : ∃ nested, ∃ pending : PendingHeredoc, NestedScan.Sound nested ∧ pending.Tagged ∧
      pending.resolve nested c = .ok b := ⟨nested, pending, hn, htagged, h⟩
  have hpassed := resolve_passes h
  obtain ⟨body, line, closing, fs, hsplit, hfs, rfl⟩ := resolve_eq_ok.mp h
  obtain ⟨hlines, hwhole, hclosing⟩ := splitAtClosing?_lines hsplit
  obtain ⟨cs, hcs⟩ := linesTo_reads hlines
  obtain ⟨tail, htail, hpasses, hrest⟩ := afterClosing_passes hcs hwhole
  have hresume : (afterClosing line).offset = line.start.offset + (line.text ++ tail).length := by
    have : (afterClosing line).offset = _ := hpasses.offset
    simp only [this, hcs.offset, List.length_append, Nat.add_assoc]
  by_cases hc : c.rest = []
  · -- At the end of the source there is nothing to account for.
    have hnone := hpasses.rest
    rw [hc, eq_comm, List.append_eq_nil_iff, List.append_eq_nil_iff] at hnone
    have hbody : fs = [] := by
      cases hlines with
      | nil =>
        cases hfs
        rfl
      | cons _ hread _ =>
        have := hread.rest
        simp [hc] at this
    refine ⟨hat, horigin, rfl, hpassed, by simp [hbody, HeredocBody.mem_deepFragments,
      HeredocBody.fragments], fun i hi hd => ?_⟩
    have : (afterClosing line).offset = c.offset := by
      rw [hresume, hcs.offset, hnone.1.1, hnone.1.2]
      rfl
    exact absurd hd (by change ¬ i < (afterClosing line).offset; omega)
  · have hat' := hat hc
    obtain ⟨hsound, hacc⟩ := scanLines_accounted hn hlines hat' hat' hfs
    refine ⟨hat, horigin, rfl, hpassed, fun f hf => ?_, fun i hi hd => ?_⟩
    · obtain ⟨g, hg, hf⟩ := HeredocBody.mem_deepFragments.mp hf
      exact hsound g hg f hf
    · by_cases hline : i < line.start.offset
      · exact .inr (hacc i hi hi hline)
      · have hread := Cursor.reads_skip_length hrest
        refine (closingLine_accounted (hcs.at hat') hread htail hclosing (by omega) ?_).imp_right
          .inr
        rw [hread.offset, ← hresume]
        exact hd

end PendingHeredoc

/-- Bodies are resolved one after the other, each from where the one before it ends. -/
theorem resolveAll_cons_eq_ok {pending : PendingHeredoc} {waiting : List PendingHeredoc}
    {c d : Cursor} {bodies : List HeredocBody} :
    resolveAll nested (pending :: waiting) c = .ok (bodies, d) ↔ ∃ b bs,
      pending.resolve nested c = .ok b ∧
      resolveAll nested waiting (c.jump b.resume) = .ok (bs, d) ∧ b :: bs = bodies := by
  constructor
  · intro h
    unfold resolveAll at h
    obtain ⟨b, hb, h⟩ := bind_eq_ok.mp h
    obtain ⟨⟨bs, after⟩, hbs, h⟩ := bind_eq_ok.mp h
    cases h
    exact ⟨b, bs, hb, hbs, rfl⟩
  · rintro ⟨b, bs, hb, hbs, rfl⟩
    unfold resolveAll
    exact bind_eq_ok.mpr ⟨b, hb, bind_eq_ok.mpr ⟨(bs, d), hbs, rfl⟩⟩

end ManifestTree
