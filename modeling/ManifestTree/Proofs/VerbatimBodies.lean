import ManifestTree.Proofs.HeredocPairs
import ManifestTree.Proofs.QuotedTexts

/-!
# Verbatim heredocs

A heredoc whose tag is not double-quoted and has no escape flags is verbatim: its fragments are
plain characters and stand for its body lines as they are written, but for the margin and the last
line end that the closing line asks to trim.
-/

namespace ManifestTree

open Text

/-! ## Trimmed lines -/

/-- A line without its longest prefix of blanks that has at most `indent` characters. -/
def dropMargin (indent : Nat) (line : Text) : Text :=
  line.drop ((line.take indent).takeWhile isBlank).length

/-- A text without its last line end, a line feed and a carriage return before it. -/
def chompEnd (cs : Text) : Text := dropReturn cs.dropLast

/-- What is left of some lines, each with its line feed, without their margins and perhaps the last
line end. -/
def trimmedLines (indent : Nat) (chomp : Bool) (lines : List Text) : Text :=
  let text := lines.flatMap fun line => dropMargin indent line ++ [.char '\n']
  if chomp then chompEnd text else text

/-- What is left of the body lines where the closing line asks for a trim and has some
indentation. -/
def Trim.apply (trim : Trim) (indent : Nat) (lines : List Text) : Text :=
  trimmedLines (if trim.margin then indent else 0) trim.chomp lines

/-- The body of a heredoc whose lines stand at the beginning of a text: those of the body, none of
which closes it, then the closing line.  The fragments are plain and stand for what is left of the
body lines. -/
structure HeredocBody.WrittenAs (b : HeredocBody) (terminator cs : Text)
    (lines : List Text) (line after : Text) : Prop where
  text : cs = lines.flatMap (· ++ [.char '\n']) ++ (line ++ after)
  unbroken : .char '\n' ∉ line ∧ ∀ l ∈ lines, .char '\n' ∉ l
  ends : ∀ c ∈ after.head?, c = '\n'
  closes : ∃ closing, closingText? line = some closing ∧ closing.text = terminator ∧
    closing.trim = b.trim
  first : ∀ l ∈ lines, ∀ other, closingText? l = some other → other.text ≠ terminator
  plain : ∀ f ∈ b.fragments, f.piece = .content
  value : b.fragments.flatMap Fragment.value =
    b.trim.apply (line.takeWhile isBlank).length lines

/-! ## Plain regions -/

/-- Where no character may follow a backslash there are no escapes. -/
theorem Lexeme.escape?_nil (cs : Text) : Lexeme.escape? [] cs = none := by
  unfold Lexeme.escape?
  split <;> rfl

namespace Fragments

/-- Without escapes and interpolations everything up to an offset is plain. -/
theorem scanFrom_plain (nested : NestedScan) (stop : Nat) {fuel : Nat} (run : Cursor) {c : Cursor}
    (hfuel : c.rest.length < fuel) :
    scanFrom nested ⟨[], false, .offset stop⟩ fuel run c =
      .ok (content run (c.skip (stop - c.offset)), c.skip (stop - c.offset)) := by
  induction fuel generalizing c with
  | zero => exact absurd hfuel (Nat.not_lt_zero _)
  | succ fuel ih =>
    by_cases hstop : stop ≤ c.offset
    · have hdone : Reading.next ⟨[], false, .offset stop⟩ c = .done := by
        simp [Reading.next, Stop.holds, hstop]
      simp only [scanFrom, hdone, Nat.sub_eq_zero_of_le hstop, Cursor.skip_zero]
    cases hc : c.rest with
    | nil =>
      have hdone : Reading.next ⟨[], false, .offset stop⟩ c = .done := by
        simp [Reading.next, Stop.holds, hstop, Cursor.atEnd, hc]
      have hskip : c.skip (stop - c.offset) = c := by
        have hread := Cursor.reads_skip c (stop - c.offset)
        rw [hc, List.take_nil] at hread
        exact hread.unique (.refl c)
      simp only [scanFrom, hdone, hskip]
    | cons x xs =>
      have hplain : Reading.next ⟨[], false, .offset stop⟩ c = .plain := by
        simp [Reading.next, Stop.holds, hstop, Cursor.atEnd, hc, Reading.special,
          Lexeme.escape?_nil]
      have hone := Cursor.reads_skip_one hc
      have hlen : (c.skip 1).rest.length < fuel := by
        rw [hone.rest, List.length_append, List.length_singleton] at hfuel
        omega
      have hgo : (c.skip 1).skip (stop - (c.skip 1).offset) = c.skip (stop - c.offset) := by
        rw [Cursor.skip_skip, hone.offset, List.length_singleton]
        congr 1
        omega
      simp only [scanFrom, hplain, ih hlen, hgo]

end Fragments

/-! ## Body lines -/

theorem chompEnd_append {cs ds : Text} (hc : ∀ c ∈ cs.getLast?, c = '\n') (hd : ds ≠ []) :
    chompEnd (cs ++ ds) = cs ++ chompEnd ds := by
  unfold chompEnd
  rw [List.dropLast_append_of_ne_nil hd]
  generalize ds.dropLast = es
  unfold dropReturn
  cases es with
  | nil =>
    rw [List.append_nil, if_neg, if_neg (by simp), List.append_nil]
    intro hr
    exact absurd (hc _ hr) (by decide)
  | cons e es =>
    rw [List.getLast?_append_of_ne_nil _ (List.cons_ne_nil e es)]
    split
    · exact List.dropLast_append_of_ne_nil (List.cons_ne_nil e es)
    · rfl

/-- The first of several lines is never chomped. -/
theorem trimmedLines_cons (indent : Nat) (chomp : Bool) (line : Text)
    (more : List Text) :
    trimmedLines indent chomp (line :: more) =
      trimmedLines indent (chomp && more.isEmpty) [line] ++ trimmedLines indent chomp more := by
  cases more with
  | nil => cases chomp <;> simp [trimmedLines, chompEnd, dropReturn]
  | cons next more =>
    cases chomp with
    | false => simp [trimmedLines]
    | true =>
      simp only [trimmedLines, List.flatMap_cons, List.flatMap_nil, List.append_nil,
        Bool.and_false, if_true, List.isEmpty_cons]
      exact chompEnd_append (by simp) (by simp)

/-- A carriage return at the end of a line is still there after the margin. -/
theorem dropReturn_dropMargin (indent : Nat) (line : Text) :
    dropReturn (dropMargin indent line) =
      (dropReturn line).drop ((line.take indent).takeWhile isBlank).length := by
  unfold dropReturn dropMargin
  by_cases hr : line.getLast? = some (.char '\r')
  · have hlt : ((line.take indent).takeWhile isBlank).length < line.length := by
      by_contra hle
      have hfront := (List.takeWhile_prefix isBlank).trans (List.take_prefix indent line)
      have hall := hfront.eq_of_length_le (Nat.le_of_not_lt hle)
      have hblank := List.mem_takeWhile_imp (hall ▸ List.mem_of_getLast? hr)
      exact absurd hblank (by decide)
    rw [if_pos hr, List.getLast?_drop, if_neg (Nat.not_le_of_lt hlt), if_pos hr,
      List.dropLast_drop_eq_drop_dropLast]
  · rw [if_neg hr, if_neg]
    rw [List.getLast?_drop]
    split
    · nofun
    · exact hr

/-- The end of what was read can be read from a place on the way. -/
theorem Cursor.Reads.drop {c d : Cursor} {cs : Text} (h : c.Reads cs d) {m : Nat}
    (hm : m ≤ cs.length) : (c.skip m).Reads (cs.drop m) d := by
  have hrest : c.rest = cs.take m ++ (cs.drop m ++ d.rest) := by
    rw [h.rest, ← List.append_assoc, List.take_append_drop]
  have hfront := Cursor.reads_skip_length hrest
  rw [List.length_take_of_le hm] at hfront
  have hback : (c.skip m).rest = cs.drop m ++ d.rest :=
    List.append_cancel_left (hfront.rest.symm.trans hrest)
  have hwhole := hfront.trans (Cursor.reads_skip_length hback)
  rw [List.take_append_drop] at hwhole
  rw [h.unique hwhole]
  exact Cursor.reads_skip_length hback

namespace PendingHeredoc

/-- What is left of a line stands between its margin and its stop. -/
theorem afterMargin_trimmed (indent : Nat) (chomped : Bool) (line : SourceLine) {d : Cursor}
    (hread : line.start.Reads (line.text ++ [.char '\n']) d) :
    ∃ stop, (afterMargin indent (lineStop chomped line) line).Reads
        (trimmedLines indent chomped [line.text]) stop ∧
      stop.offset = lineStop chomped line := by
  let kept := if chomped then dropReturn line.text else line.text ++ [.char '\n']
  let margin := ((line.text.take indent).takeWhile isBlank).length
  have hstop : lineStop chomped line = line.start.offset + kept.length := by
    unfold lineStop
    cases chomped with
    | false => simp [kept, Nat.add_assoc]
    | true =>
      simp only [kept, dropReturn, if_true]
      split
      case isTrue hr =>
        have := List.length_pos_iff.mpr (List.ne_nil_of_mem (List.mem_of_getLast? hr))
        rw [List.length_dropLast]
        omega
      case isFalse => rfl
  have htrimmed : trimmedLines indent chomped [line.text] = kept.drop margin := by
    cases chomped with
    | false =>
      have hle : margin ≤ line.text.length :=
        ((List.takeWhile_prefix isBlank).trans (List.take_prefix indent line.text)).length_le
      simp [trimmedLines, dropMargin, kept, margin, List.drop_append_of_le_length hle]
    | true =>
      have htext : trimmedLines indent true [line.text] =
          dropReturn (dropMargin indent line.text) := by
        simp [trimmedLines, chompEnd]
      exact htext.trans (dropReturn_dropMargin indent line.text)
  obtain ⟨back, hback⟩ : ∃ back, line.start.rest = kept ++ back := by
    rw [hread.rest]
    refine ((?_ : kept <+: line.text ++ [.char '\n']).trans (List.prefix_append _ d.rest)).imp
      fun _ h => h.symm
    cases chomped with
    | false => exact List.prefix_rfl
    | true =>
      refine List.IsPrefix.trans ?_ (List.prefix_append line.text [.char '\n'])
      simp only [kept, dropReturn, if_true]
      split
      · exact List.dropLast_prefix _
      · exact List.prefix_rfl
  have hkept := Cursor.reads_skip_length hback
  refine ⟨line.start.skip kept.length, ?_, ?_⟩
  · have hdrop : kept.drop margin = kept.drop (min margin kept.length) := by
      rcases Nat.le_total margin kept.length with h | h
      · rw [Nat.min_eq_left h]
      · rw [Nat.min_eq_right h, List.drop_of_length_le h, List.drop_length]
    rw [htrimmed, hdrop, afterMargin, hstop, Nat.add_sub_cancel_left]
    exact hkept.drop (Nat.min_le_right _ _)
  · rw [hstop, hkept.offset]

/-- Body lines that are read without escapes and interpolations are plain. -/
theorem scanLines_verbatim (nested : NestedScan) {tag : HeredocTag} (indent : Option Nat)
    (chomp : Bool) {lines : List SourceLine} {c e resume : Cursor} (hescapes : tag.escapeSet = [])
    (hplain : tag.interpolates = false) (hlines : LinesTo c lines e)
    (hresume : resume.offset ≤ c.offset) :
    ∃ fs, scanLines nested tag indent chomp resume lines = .ok fs ∧
      (∀ f ∈ fs, f.piece = .content) ∧ fs.flatMap Fragment.value =
        trimmedLines (indent.getD 0) chomp (lines.map SourceLine.text) := by
  induction hlines generalizing resume with
  | nil c =>
    refine ⟨[], rfl, List.forall_mem_nil _, ?_⟩
    cases chomp <;> rfl
  | @cons c d e text more hnl hread _ ih =>
    let last := chomp && more.isEmpty
    let limit := lineStop last ⟨c, text⟩
    let begin := afterMargin (indent.getD 0) limit ⟨c, text⟩
    have hbegin : lineBegin? indent resume ⟨c, text⟩ limit = some begin := by
      unfold lineBegin?
      rw [if_neg (Nat.not_lt_of_le hresume)]
      cases indent with
      | none => simp [begin, afterMargin]
      | some n => rfl
    obtain ⟨stop, hkept, hstop⟩ : ∃ stop,
        begin.Reads (trimmedLines (indent.getD 0) last [text]) stop ∧ stop.offset = limit :=
      afterMargin_trimmed (indent.getD 0) last ⟨c, text⟩ hread
    obtain ⟨hline, hfirst⟩ := Fragments.content_value hkept
    have hscan : Fragments.scan nested ⟨tag.escapeSet, tag.interpolates, .offset limit⟩ begin =
        .ok (Fragments.content begin stop, stop) := by
      have hskip : begin.skip (limit - begin.offset) = stop := by
        rw [← hstop, hkept.offset, Nat.add_sub_cancel_left]
        exact hkept.skip_eq
      have hok := Fragments.scanFrom_plain nested limit begin (Nat.lt_succ_self begin.rest.length)
      rwa [hskip, ← hescapes, ← hplain] at hok
    have hle : stop.offset ≤ d.offset := by
      rw [hstop, hread.offset, List.length_append, List.length_singleton, ← Nat.add_assoc]
      exact lineStop_le last ⟨c, text⟩
    obtain ⟨fs, hok, hcontent, hvalue⟩ := ih hle
    refine ⟨Fragments.content begin stop ++ fs, ?_,
      List.forall_mem_append.mpr ⟨hfirst, hcontent⟩, ?_⟩
    · unfold scanLines
      dsimp only
      rw [show lineStop (chomp && more.isEmpty) ⟨c, text⟩ = limit from rfl, hbegin]
      dsimp only
      rw [hscan]
      exact bind_eq_ok.mpr ⟨_, rfl, bind_eq_ok.mpr ⟨_, hok, rfl⟩⟩
    · rw [List.flatMap_append, hline, hvalue, List.map_cons,
        trimmedLines_cons _ _ text (more.map SourceLine.text), List.isEmpty_map]

/-! ## Resolved heredocs -/

/-- A verbatim tag asks for no escapes and does not interpolate. -/
theorem verbatim_reading {tag : HeredocTag} (hquoting : tag.quoting ≠ .double)
    (hflags : tag.escapes = none) : tag.escapeSet = [] ∧ tag.interpolates = false := by
  simp [HeredocTag.escapeSet, HeredocTag.interpolates, hquoting, hflags]

/-- No line before the first closing line closes. -/
theorem splitAtClosing?_earlier {terminator : Text} {lines body : List SourceLine}
    {line : SourceLine} {closing : ClosingText}
    (h : splitAtClosing? terminator lines = some (body, line, closing)) :
    ∀ l ∈ body, ∀ other, closingText? l.text = some other → other.text ≠ terminator := by
  induction lines generalizing body with
  | nil => cases h
  | cons first more ih =>
    have later (hfirst : ∀ other, closingText? first.text = some other → other.text ≠ terminator)
        (h : (splitAtClosing? terminator more).map (fun p => (first :: p.1, p.2)) =
          some (body, line, closing)) :
        ∀ l ∈ body, ∀ other, closingText? l.text = some other → other.text ≠ terminator := by
      obtain ⟨⟨front, rest⟩, hmore, he⟩ := Option.map_eq_some_iff.mp h
      cases he
      exact List.forall_mem_cons.mpr ⟨hfirst, ih hmore⟩
    unfold splitAtClosing? at h
    split at h
    case h_1 other hother =>
      split at h
      · cases h
        exact List.forall_mem_nil _
      case isFalse hne =>
        refine later (fun other' h' => ?_) h
        cases hother.symm.trans h'
        exact hne
    case h_2 hother =>
      exact later (fun other' h' => nomatch hother.symm.trans h') h

/-- The indentation of a closing line is its first blanks. -/
theorem closingText?_indent {line : Text} {closing : ClosingText}
    (h : closingText? line = some closing) : closing.indent = (line.takeWhile isBlank).length := by
  unfold closingText? at h
  dsimp only at h
  split at h
  · cases h
  cases h
  dsimp only
  unfold dropReturn
  split
  case isFalse => rfl
  case isTrue hr =>
    obtain ⟨front, rfl⟩ := List.getLast?_eq_some_iff.mp hr
    rw [List.dropLast_concat, List.takeWhile_append]
    split
    case isTrue hall =>
      rw [hall]
      exact congrArg List.length (List.append_nil front).symm
    case isFalse => rfl

/-- Some body lines are the text that is read with them. -/
theorem linesTo_text {c e : Cursor} {lines : List SourceLine} (h : LinesTo c lines e) :
    c.Reads ((lines.map SourceLine.text).flatMap (· ++ [.char '\n'])) e ∧
      ∀ l ∈ lines.map SourceLine.text, .char '\n' ∉ l := by
  induction h with
  | nil c => exact ⟨.refl c, List.forall_mem_nil _⟩
  | cons hnl hread _ ih =>
    exact ⟨hread.trans ih.1, List.forall_mem_cons.mpr ⟨hnl, ih.2⟩⟩

/-- The fragments of a heredoc with a verbatim tag stand for its body lines. -/
theorem resolve_writtenAs {nested : NestedScan} {p : PendingHeredoc} {c : Cursor}
    {b : HeredocBody} (hquoting : p.tag.quoting ≠ .double) (hflags : p.tag.escapes = none)
    (h : p.resolve nested c = .ok b) :
    ∃ lines line after, b.WrittenAs p.tag.terminator c.rest lines line after := by
  obtain ⟨hescapes, hplain⟩ := verbatim_reading hquoting hflags
  obtain ⟨body, line, closing, fs, hsplit, hscan, rfl⟩ := resolve_eq_ok.mp h
  obtain ⟨hlines, ⟨hnl, hwhole⟩, hclosing⟩ := splitAtClosing?_lines hsplit
  obtain ⟨hread, hbroken⟩ := linesTo_text hlines
  obtain ⟨fs', hfs, hcontent, hvalue⟩ := scanLines_verbatim nested
    (if closing.trim.margin then some closing.indent else none) closing.trim.chomp hescapes hplain
    hlines (Nat.le_refl c.offset)
  cases hfs.symm.trans hscan
  obtain ⟨after, hafter, hends⟩ : ∃ after, line.start.rest = line.text ++ after ∧
      ∀ ch ∈ after.head?, ch = '\n' := by
    rcases hwhole with hend | ⟨d, hd⟩
    · exact ⟨[], by rw [hend, List.append_nil], nofun⟩
    · refine ⟨.char '\n' :: d.rest, by rw [hd.rest, List.append_assoc]; rfl, fun ch hch => ?_⟩
      exact (Option.some.inj hch).symm
  have hindent : (if closing.trim.margin then some closing.indent else none).getD 0 =
      if closing.trim.margin then (line.text.takeWhile isBlank).length else 0 := by
    rw [closingText?_indent hclosing]
    cases closing.trim.margin <;> rfl
  rw [hindent] at hvalue
  exact ⟨body.map SourceLine.text, line.text, after,
    { text := by rw [hread.rest, hafter]
      unbroken := ⟨hnl, hbroken⟩
      ends := hends
      closes := ⟨closing, hclosing, splitAtClosing?_text hsplit, rfl⟩
      first := List.forall_mem_map.mpr (splitAtClosing?_earlier hsplit)
      plain := hcontent
      value := hvalue }⟩

/-- A body begins where it is looked for. -/
theorem resolve_begins {nested : NestedScan} {p : PendingHeredoc} {c : Cursor} {b : HeredocBody}
    (h : p.resolve nested c = .ok b) : b.span.start = c.offset := by
  obtain ⟨body, line, closing, fs, -, -, rfl⟩ := resolve_eq_ok.mp h
  rfl

end PendingHeredoc

/-- At the end of a source no heredoc can be closed. -/
theorem HeredocBody.WrittenAs.ne_nil {b : HeredocBody} {terminator cs line after : Text}
    {lines : List Text} (h : b.WrittenAs terminator cs lines line after)
    (hne : terminator ≠ []) : cs ≠ [] := by
  rintro rfl
  obtain ⟨closing, hclosing, htext, -⟩ := h.closes
  have hline := h.text.symm
  rw [List.append_eq_nil_iff, List.append_eq_nil_iff] at hline
  rw [hline.2.1] at hclosing
  cases hclosing
  exact hne htext.symm

/-- A tag that is not double-quoted and has no escape flags is verbatim: whichever way a heredoc
with it is resolved, in particular where a source is scanned, its fragments are plain and stand for
the body lines as the closing line trims them. -/
theorem HeredocTag.verbatim {tag : HeredocTag} (hquoting : tag.quoting ≠ .double)
    (hflags : tag.escapes = none) :
    (∀ (nested : NestedScan) (p : PendingHeredoc) (c : Cursor) (b : HeredocBody),
      p.tag = tag → p.resolve nested c = .ok b →
        ∃ lines line after, b.WrittenAs tag.terminator c.rest lines line after) ∧
    ∀ (source : Text) (tokens comments : List Token) (t : Token) (b : HeredocBody),
      Token.scan source = .ok (tokens, comments) → t ∈ tokens → t.detail = .heredoc tag (some b) →
        ∃ before cs, source = before ++ cs ∧ b.span.start = before.length ∧
          ∃ lines line after, b.WrittenAs tag.terminator cs lines line after := by
  refine ⟨fun nested p c b hp h => ?_, fun source tokens comments t b h ht hdetail => ?_⟩
  · subst hp
    exact PendingHeredoc.resolve_writtenAs hquoting hflags h
  · have hkind : t.kind = .heredoc := by
      have hscan := Token.scan_scans source
      rw [h] at hscan
      obtain hshape | ⟨-, fs, hshape⟩ | ⟨hkind, -⟩ := (hscan t ht).shape
      · cases hdetail.symm.trans hshape
      · cases hdetail.symm.trans hshape
      · exact hkind
    obtain ⟨answered, s, hpaired, hheredocs⟩ := Token.scan_paired h
    have hmem : t ∈ Token.heredocs tokens := List.mem_filter.mpr ⟨ht, decide_eq_true hkind⟩
    rw [hheredocs] at hmem
    obtain ⟨⟨u, body⟩, hpair, rfl⟩ := List.mem_map.mp hmem
    have hanswered := (List.forall₂_iff_zip.mp hpaired.answers).2 hpair
    obtain ⟨p, hd, hp⟩ := hanswered.withBody_detail
    cases hdetail.symm.trans hd
    obtain ⟨nested, c, hat, hread⟩ := hp.origin
    obtain ⟨lines, line, after, hb⟩ := PendingHeredoc.resolve_writtenAs hquoting hflags hread
    obtain ⟨before, hsource, hpos⟩ := hat (hb.ne_nil hp.tagged.terminator_ne_nil)
    refine ⟨before, c.rest, hsource, ?_, lines, line, after, hb⟩
    rw [PendingHeredoc.resolve_begins hread, Cursor.offset, hpos, Position.after_offset]
    simp [Position.start]

/-- A body with a margin and a dollar sign, whose last line ends with a carriage return. -/
theorem HeredocTag.verbatim_margin : ∃ tag tokens comments t b, tag.quoting ≠ .double ∧
    tag.escapes = none ∧
    Token.scan (Text.ofString "@(END)\n    $\x7ba\n\n  b\\n\r\n  |- END\n") =
        .ok (tokens, comments) ∧
    t ∈ tokens ∧ t.detail = .heredoc tag (some b) ∧
    ∃ before cs, Text.ofString "@(END)\n    $\x7ba\n\n  b\\n\r\n  |- END\n" = before ++ cs ∧
      b.span.start = before.length ∧
        ∃ lines line after, b.WrittenAs tag.terminator cs lines line after := by
  let tag : HeredocTag := ⟨Text.ofString "END", Text.ofString "END", .bare, none, none⟩
  have hrun : (Token.scan (Text.ofString "@(END)\n    $\x7ba\n\n  b\\n\r\n  |- END\n")).toOption.map
      (fun p => p.1.head?.map fun t => (t.tag?, t.body?.isSome)) =
        some (some (some tag, true)) := by cbv
  obtain ⟨⟨tokens, comments⟩, hscan, hfirst⟩ := exists_ok_of_map hrun
  obtain ⟨t, ht, hboth⟩ := Option.map_eq_some_iff.mp hfirst
  obtain ⟨htag, hbody⟩ := Prod.mk.inj hboth
  obtain ⟨b, hb⟩ := Option.isSome_iff_exists.mp hbody
  have hdetail : t.detail = .heredoc tag (some b) := by
    obtain ⟨kind, text, span, detail⟩ := t
    cases detail with
    | heredoc _ _ =>
      cases htag
      cases hb
      rfl
    | plain => cases htag
    | fragments _ => cases htag
  have hmem := List.mem_of_mem_head? ht
  exact ⟨tag, tokens, comments, t, b, by decide, rfl, hscan, hmem, hdetail,
    (HeredocTag.verbatim (by decide) rfl).2 _ _ _ _ _ hscan hmem hdetail⟩

example : Trim.apply ⟨true, true⟩ 2 [Text.ofString "    $\x7ba", [], Text.ofString "  b\\n\r"] =
    (Text.ofString "  $\x7ba\n\nb\\n") := by decide

end ManifestTree
