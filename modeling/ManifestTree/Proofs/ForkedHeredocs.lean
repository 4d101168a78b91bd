import ManifestTree.Proofs.ForkedScans
import ManifestTree.Proofs.SourceEnd

/-!
# Heredocs of a text that goes on elsewhere

The first of two texts ends where they part, and the other may go on with a line end.  The body of a
heredoc that the first text closes is closed by the same line in the other, since a closing line ends
with the text or with a line end.  Where the closing line ends the first text, scanning goes on in
the other after the line end.
-/

namespace ManifestTree

open Text

/-- The first text ends where the texts part.  Heredocs in the second are numbered from `tickets`,
and offsets counted from `shift`.  The place after a closing line is looked at as the place where
scanning goes on in the second text. -/
structure Fork.Extends (k : Fork) (shift tickets : Nat) : Prop extends Fork.Lawful k where
  ends : k.rest = []
  right : k.right = .plain
  ticket : ∀ n, k.left.ticket n = n + tickets
  offset : ∀ {p p'}, k.places p p' → p'.offset = p.offset + shift
  next : ∀ {c d c' d' : Cursor} {w v cs : Text}, c.Beside k w c' → d.Beside k v d' →
    c.Reads (cs ++ [.char '\n']) d → k.left.resume d.pos = d'.pos
  last : ∀ {c c' : Cursor} {w : Text}, c.Beside k w c' → w ≠ [] → .char '\n' ∉ w →
    k.left.resume ⟨c.offset + w.length, c.pos.line + 1, 1⟩ =
      ⟨c'.offset + w.length + (k.other.take 1).length, c'.pos.line + 1, 1⟩

variable {k : Fork} {shift tickets : Nat}

/-! ## Lines -/

theorem splitLine_line {text : Text} (h : .char '\n' ∉ text) (rest : Text) :
    splitLine (text ++ .char '\n' :: rest) = (text, some rest) := by
  induction text with
  | nil => rfl
  | cons c text ih =>
    simp only [List.mem_cons, not_or] at h
    rw [List.cons_append, splitLine, if_neg (Ne.symm h.1), ih h.2]

theorem splitLine_end {text : Text} (h : .char '\n' ∉ text) : splitLine text = (text, none) := by
  induction text with
  | nil => rfl
  | cons c text ih =>
    simp only [List.mem_cons, not_or] at h
    rw [splitLine, if_neg (Ne.symm h.1), ih h.2]

namespace Cursor

variable {c : Cursor} {text rest : Text}

theorem lines_line (hc : c.rest = text ++ .char '\n' :: rest) (h : .char '\n' ∉ text) :
    c.lines = ⟨c, text⟩ :: lines ⟨c.pos.after (text ++ [.char '\n']), rest⟩ := by
  have hsplit : splitLine c.rest = (text, some rest) := by rw [hc, splitLine_line h]
  rw [lines]
  split <;> rename_i hs <;> cases hsplit.symm.trans hs
  rfl

theorem lines_end (h : .char '\n' ∉ c.rest) : c.lines = [⟨c, c.rest⟩] := by
  have hsplit := splitLine_end h
  rw [lines]
  split <;> rename_i hs <;> cases hsplit.symm.trans hs
  rfl

end Cursor

/-- No line closes a heredoc at the end of a text. -/
theorem splitAtClosing?_nil {terminator : Text} (h : terminator ≠ []) (p : Position) :
    splitAtClosing? terminator (Cursor.lines ⟨p, []⟩) = none := by
  rw [Cursor.lines_end (List.not_mem_nil)]
  have hclosing : closingText? [] = some ⟨0, ⟨false, false⟩, 0, []⟩ := rfl
  simp only [splitAtClosing?, hclosing]
  rw [if_neg (Ne.symm h)]
  rfl

/-- Lines of the two texts, the first of which more text comes after. -/
structure SourceLine.Beside (k : Fork) (n : Nat) (l l' : SourceLine) : Prop where
  text : l'.text = l.text
  start : ∃ v, v ≠ [] ∧ l.start.Beside k (l.text ++ .char '\n' :: v) l'.start
  within : l'.start.rest.length ≤ n

/-- The lines before the first closing line are the same, and so is that line. -/
theorem splitAtClosing?_beside (hk : k.Extends shift tickets) {terminator : Text}
    (ht : terminator ≠ []) {c c' : Cursor} {w : Text} {n : Nat} {body : List SourceLine}
    {line : SourceLine} {closing : ClosingText} (h : c.Beside k w c') (hn : c'.rest.length ≤ n)
    (hs : splitAtClosing? terminator c.lines = some (body, line, closing)) :
    ∃ body' line' v, splitAtClosing? terminator c'.lines = some (body', line', closing) ∧
      List.Forall₂ (SourceLine.Beside k n) body body' ∧ line'.text = line.text ∧
        line.start.Beside k v line'.start := by
  induction hlength : w.length using Nat.strongRecOn generalizing c c' w body with
  | ind m ih =>
    by_cases hline : .char '\n' ∈ w
    · obtain ⟨text, rest, rfl, htext⟩ := List.eq_append_cons_of_mem hline
      have hrest : c.rest = text ++ .char '\n' :: rest := by rw [h.rest, hk.ends, List.append_nil]
      have hother : c'.rest = text ++ .char '\n' :: (rest ++ k.other) := by
        rw [h.other, List.append_assoc, List.cons_append]
      have hread' : c'.Reads (text ++ [.char '\n'])
          ⟨c'.pos.after (text ++ [.char '\n']), rest ++ k.other⟩ :=
        ⟨by rw [hother, List.append_assoc]; rfl, rfl⟩
      have hnext : Cursor.Beside k rest ⟨c.pos.after (text ++ [.char '\n']), rest⟩
          ⟨c'.pos.after (text ++ [.char '\n']), rest ++ k.other⟩ :=
        ⟨by rw [hk.ends, List.append_nil], rfl, hk.after h.pos _, hread'.at h.placed⟩
      rw [Cursor.lines_line hrest htext] at hs
      rw [Cursor.lines_line hother htext]
      have later (hs : (splitAtClosing? terminator
            (Cursor.lines ⟨c.pos.after (text ++ [.char '\n']), rest⟩)).map
              (fun p => (⟨c, text⟩ :: p.1, p.2)) = some (body, line, closing)) :
          ∃ body' line' v, (splitAtClosing? terminator
              (Cursor.lines ⟨c'.pos.after (text ++ [.char '\n']), rest ++ k.other⟩)).map
                (fun p => (⟨c', text⟩ :: p.1, p.2)) = some (body', line', closing) ∧
            List.Forall₂ (SourceLine.Beside k n) body body' ∧ line'.text = line.text ∧
              line.start.Beside k v line'.start := by
        obtain ⟨⟨body, line, closing⟩, hsplit, he⟩ := Option.map_eq_some_iff.mp hs
        cases he
        have hne : rest ≠ [] := by
          rintro rfl
          rw [splitAtClosing?_nil ht] at hsplit
          cases hsplit
        have hle : (rest ++ k.other).length ≤ n := by
          rw [hother] at hn
          simp only [List.length_append, List.length_cons] at hn ⊢
          omega
        obtain ⟨body', line', v, hsplit', hbody, hline⟩ := ih rest.length
          (by rw [← hlength, List.length_append, List.length_cons]; omega) hnext hle hsplit rfl
        exact ⟨⟨c', text⟩ :: body', line', v, by rw [hsplit']; rfl,
          .cons ⟨rfl, ⟨rest, hne, h⟩, hn⟩ hbody, hline⟩
      unfold splitAtClosing? at hs ⊢
      cases hc : closingText? text with
      | none =>
        simp only [hc] at hs ⊢
        exact later hs
      | some found =>
        simp only [hc] at hs ⊢
        by_cases hfound : found.text = terminator
        · rw [if_pos hfound] at hs ⊢
          cases hs
          exact ⟨[], ⟨c', text⟩, _, rfl, .nil, rfl, h⟩
        · rw [if_neg hfound] at hs ⊢
          exact later hs
    · -- The last line of the first text ends the line in the second.
      have hrest : c.rest = w := by rw [h.rest, hk.ends, List.append_nil]
      obtain ⟨more, hmore⟩ : ∃ more, c'.lines = ⟨c', w⟩ :: more := by
        rcases hk.lines (.inl hk.ends) with hnil | hhead
        · have hrest' : c'.rest = w := by rw [h.other, hnil, List.append_nil]
          exact ⟨[], by rw [Cursor.lines_end (by rwa [hrest']), hrest']⟩
        · obtain ⟨rest, hrest'⟩ := List.head?_eq_some_iff.mp hhead
          exact ⟨_, Cursor.lines_line (by rw [h.other, hrest']) hline⟩
      rw [Cursor.lines_end (by rwa [hrest]), hrest] at hs
      rw [hmore]
      unfold splitAtClosing? at hs ⊢
      cases hc : closingText? w with
      | none =>
        simp only [hc] at hs
        cases hs
      | some found =>
        simp only [hc] at hs ⊢
        by_cases hfound : found.text = terminator
        · rw [if_pos hfound] at hs ⊢
          cases hs
          exact ⟨[], ⟨c', w⟩, w, rfl, .nil, rfl, h⟩
        · rw [if_neg hfound] at hs
          cases hs

/-! ## Bodies -/

/-- From a cursor to the end of the first text there is as much as in the second up to where the
texts part. -/
theorem Cursor.Beside.total (hk : k.Extends shift tickets) {c c' : Cursor} {w : Text}
    (h : c.Beside k w c') :
    c.offset + c.rest.length + shift + k.other.length = k.whole.length := by
  have htotal := h.placed.offset_add
  have hoffset : c'.offset = c.offset + shift := hk.offset h.pos
  have hlength := h.length_eq
  have hother := h.other_length
  rw [hk.ends, List.length_nil] at hlength
  omega

/-- The first text ends with a closing line, and scanning goes on in the second after the line end
that comes next. -/
structure Cursor.Over (k : Fork) (c c' : Cursor) : Prop where
  rest : c.rest = []
  other : c'.rest = k.other.drop 1
  pos : c'.pos = k.left.resume c.pos
  counted : c.pos.Counted
  placed : k.other ≠ [] → At k.whole c'

/-- Scanning goes on in the common part, or after a closing line that ends it. -/
def Cursor.Meets (k : Fork) (c c' : Cursor) : Prop := (∃ v, c.Beside k v c') ∨ c.Over k c'

/-- Before the end of the first text it is the common part in which scanning goes on. -/
theorem Cursor.Meets.beside {c c' : Cursor} (h : c.Meets k c') (hne : c.rest ≠ []) :
    ∃ v, c.Beside k v c' := h.resolve_right fun hover => hne hover.rest

namespace PendingHeredoc

open Fragments

variable {nested nested' : NestedScan} {n : Nat} {l l' : SourceLine} {resume resume' : Cursor}
  {u : Text}

theorem lineStop_beside (hk : k.Extends shift tickets) (hl : l.Beside k n l') (chomped : Bool) :
    lineStop chomped l' = lineStop chomped l + shift := by
  obtain ⟨v, -, hstart⟩ := hl.start
  have hoffset : l'.start.offset = l.start.offset + shift := hk.offset hstart.pos
  unfold lineStop
  dsimp only
  rw [hl.text, hoffset]
  split
  · split
    · rename_i hreturn
      have : 0 < l.text.length := List.length_pos_of_mem (List.mem_of_getLast? hreturn)
      omega
    · omega
  · omega

theorem lineBegin?_beside (hk : k.Extends shift tickets) (hl : l.Beside k n l')
    (hresume : resume.Beside k u resume') (hn : resume'.rest.length ≤ n) (indent : Option Nat)
    (stop : Nat) :
    (lineBegin? indent resume l stop = none ∧
        lineBegin? indent resume' l' (stop + shift) = none) ∨
      ∃ b b' v, lineBegin? indent resume l stop = some b ∧
        lineBegin? indent resume' l' (stop + shift) = some b' ∧ b.Beside k v b' ∧
          b'.rest.length ≤ n := by
  obtain ⟨v, -, hstart⟩ := hl.start
  have hoffset : l'.start.offset = l.start.offset + shift := hk.offset hstart.pos
  have hresumes : resume'.offset = resume.offset + shift := hk.offset hresume.pos
  unfold lineBegin?
  by_cases hlt : l.start.offset < resume.offset
  · have hlt' : l'.start.offset < resume'.offset := by omega
    rw [if_pos hlt, if_pos hlt']
    by_cases hle : stop ≤ resume.offset
    · have hle' : stop + shift ≤ resume'.offset := by omega
      rw [if_pos hle, if_pos hle']
      exact .inl ⟨rfl, rfl⟩
    · have hle' : ¬ stop + shift ≤ resume'.offset := by omega
      rw [if_neg hle, if_neg hle']
      exact .inr ⟨_, _, u, rfl, rfl, hresume, hn⟩
  · have hlt' : ¬ l'.start.offset < resume'.offset := by omega
    rw [if_neg hlt, if_neg hlt']
    cases indent with
    | none => exact .inr ⟨_, _, _, rfl, rfl, hstart, hl.within⟩
    | some indent =>
      have hmargin : afterMargin indent (stop + shift) l' = l'.start.skip
          (min ((l.text.take indent).takeWhile isBlank).length (stop - l.start.offset)) := by
        unfold afterMargin
        dsimp only
        rw [hl.text, hoffset, Nat.add_sub_add_right]
      have hle : min ((l.text.take indent).takeWhile isBlank).length (stop - l.start.offset) ≤
          (l.text ++ .char '\n' :: v).length := by
        have hblanks := (List.takeWhile_prefix isBlank (l := l.text.take indent)).length_le
        have htake := List.length_take_le' indent l.text
        rw [List.length_append]
        omega
      have hbegin := hstart.skip hk.toLawful hle
      rw [← hmargin] at hbegin
      refine .inr ⟨_, _, _, rfl, rfl, hbegin, ?_⟩
      have := hl.within
      rw [hmargin]
      simp only [Cursor.skip, List.length_drop]
      omega

/-- The fragments of body lines are the same. -/
theorem scanLines_beside (hk : k.Extends shift tickets) (hn : nested.Sound)
    (hs : nested.Beside k n nested') {tag : HeredocTag} {indent : Option Nat} {chomp : Bool}
    {lines lines' : List SourceLine} {fs : List Fragment}
    (hl : List.Forall₂ (SourceLine.Beside k n) lines lines') (hresume : resume.Beside k u resume')
    (hlen : resume'.rest.length ≤ n)
    (h : scanLines nested tag indent chomp resume lines = .ok fs) :
    ∃ fs', scanLines nested' tag indent chomp resume' lines' = .ok fs' ∧
      fs'.map (Fragment.seen k.right) = fs.map (Fragment.seen k.left) := by
  induction hl generalizing resume resume' u fs with
  | nil =>
    cases h
    exact ⟨[], rfl, rfl⟩
  | @cons l l' lines lines' hl hls ih =>
    have hempty : lines'.isEmpty = lines.isEmpty := by cases hls <;> rfl
    unfold scanLines at h ⊢
    rw [hempty]
    dsimp only at h ⊢
    rw [lineStop_beside hk hl]
    have hbound := lineStop_le (chomp && lines.isEmpty) l
    generalize lineStop (chomp && lines.isEmpty) l = stop at h hbound
    rcases lineBegin?_beside hk hl hresume hlen indent stop with
      ⟨hb, hb'⟩ | ⟨b, b', w, hb, hb', hbegin, hwithin⟩
    · rw [hb] at h
      rw [hb']
      exact ih hresume hlen h
    · rw [hb] at h
      rw [hb']
      dsimp only at h ⊢
      obtain ⟨⟨front, last⟩, hfront, h⟩ := bind_eq_ok.mp h
      obtain ⟨back, hback, h⟩ := bind_eq_ok.mp h
      cases h
      have hreading : Reading.Beside b b' ⟨tag.escapeSet, tag.interpolates, .offset stop⟩
          ⟨tag.escapeSet, tag.interpolates, .offset (stop + shift)⟩ := by
        have hoffset : b'.offset = b.offset + shift := hk.offset hbegin.pos
        refine ⟨rfl, rfl, ?_⟩
        show stop + b'.offset = stop + shift + b.offset
        omega
      have hends : Reading.EndsWithin k ⟨tag.escapeSet, tag.interpolates, .offset stop⟩ b last := by
        obtain ⟨v, hv, hstart⟩ := hl.start
        have htotal := hstart.total hk
        have htotal' := hbegin.total hk
        have hlength := hstart.length_eq
        have hpos := List.length_pos_iff.mpr hv
        rw [hk.ends, List.length_append, List.length_cons, List.length_nil] at hlength
        exact .inr ⟨hk.ends, stop, rfl, by omega⟩
      obtain ⟨front', last', v, hok, hmap, hlast⟩ :=
        scan_beside hk.toLawful hn hs hreading hbegin hwithin hfront hends
      obtain ⟨ds, hread, -⟩ := (scan_scanned hn hfront).tiles
      have hlast' : last'.rest.length ≤ n := by
        have hread' := (hbegin.reads hlast hread).2.rest
        rw [hread', List.length_append] at hwithin
        omega
      obtain ⟨back', hok', hmap'⟩ := ih hlast hlast' hback
      refine ⟨front' ++ back', ?_, by rw [List.map_append, List.map_append, hmap, hmap']⟩
      exact bind_eq_ok.mpr ⟨_, hok, bind_eq_ok.mpr ⟨_, hok', rfl⟩⟩

variable {v : Text} {c c' : Cursor}

/-- The marker is the same, and so is the span from a body to its end. -/
theorem marker_beside (hk : k.Lawful) (hc : c.Beside k u c') (hl : l.start.Beside k v l'.start)
    (closing : ClosingText)
    (hle : closing.indent + (closing.markers + closing.text.length) ≤ v.length) :
    (marker l' closing).seen k.right = (marker l closing).seen k.left ∧
      k.right.span { Span.between c'.pos c'.pos with stop := (marker l' closing).span.stop } =
        k.left.span { Span.between c.pos c.pos with stop := (marker l closing).span.stop } := by
  have hstart := hl.skip hk (Nat.le_of_add_right_le hle)
  have hstop := hstart.skip hk (n := closing.markers + closing.text.length) (by
    rw [List.length_drop]
    omega)
  exact ⟨hstart.token hk hstop (Cursor.reads_skip _ _) .heredocEnd rfl,
    (hk.span hc.pos hstop.pos).symm⟩

/-- Scanning goes on alike after a closing line. -/
theorem afterClosing_beside (hk : k.Extends shift tickets) {cs cs' : Text}
    (hc : c.Reads cs l.start) (hc' : c'.Reads cs' l'.start) (hl : l.start.Beside k v l'.start)
    (htext : l'.text = l.text) (hw : l.Whole) (hne : l.text ≠ []) :
    afterClosing l' = k.left.resume (afterClosing l) ∧
      (c.jump (afterClosing l)).Meets k (c'.jump (afterClosing l')) := by
  obtain ⟨hnl, hend | ⟨d, hd⟩⟩ := hw
  · have hv : v = l.text := by
      have := hl.rest
      rwa [hk.ends, List.append_nil, hend, eq_comm] at this
    subst hv
    have hresume := hk.last hl hne hnl
    rw [← afterClosing_end hend] at hresume
    obtain ⟨tail, -, -, hrest⟩ := afterClosing_passes hc ⟨hnl, .inl hend⟩
    have hnil : (c.jump (afterClosing l)).rest = [] := by
      rw [hend, List.append_assoc, List.self_eq_append_right, List.append_eq_nil_iff] at hrest
      exact hrest.2
    have hcounted : (c.jump (afterClosing l)).pos.Counted := by
      show (afterClosing l).Counted
      rw [afterClosing_end hend]
      exact ⟨Nat.le_add_left _ _, Nat.le_refl _⟩
    have hnl' : .char '\n' ∉ l'.text := by rwa [htext]
    have hstart' : l'.start.rest = l'.text ++ k.other := by rw [htext, hl.other]
    rw [← htext] at hresume
    rcases hk.lines (.inl hk.ends) with hother | hother
    · have hend' : l'.start.rest = l'.text := by rw [hstart', hother, List.append_nil]
      have hafter : afterClosing l' = k.left.resume (afterClosing l) := by
        rw [hresume, hother, afterClosing_end hend']
        rfl
      obtain ⟨tail', -, -, hrest'⟩ := afterClosing_passes hc' ⟨hnl', .inl hend'⟩
      refine ⟨hafter, .inr ⟨hnil, ?_, hafter, hcounted, fun h => (h hother).elim⟩⟩
      rw [hend', List.append_assoc, List.self_eq_append_right, List.append_eq_nil_iff] at hrest'
      rw [hrest'.2, hother]
      rfl
    · obtain ⟨rest, hother⟩ := List.head?_eq_some_iff.mp hother
      rw [hother] at hstart'
      have hd' : l'.start.Reads (l'.text ++ [.char '\n'])
          ⟨l'.start.pos.after (l'.text ++ [.char '\n']), rest⟩ :=
        ⟨by rw [hstart', List.append_assoc]; rfl, rfl⟩
      have hafter : afterClosing l' = k.left.resume (afterClosing l) := by
        rw [hresume, hother, afterClosing_line hnl' hd', after_line hnl']
        rfl
      have hjump := jump_reads (hc'.trans hd')
      rw [← afterClosing_line hnl' hd'] at hjump
      refine ⟨hafter, .inr ⟨hnil, ?_, hafter, hcounted, fun _ => ?_⟩⟩
      · rw [hjump, hother]
        rfl
      · rw [hjump]
        exact hd'.at hl.placed
  · have hlong : (l.text ++ [CodePoint.char '\n']).length ≤ v.length := by
      have hrest := congrArg List.length hd.rest
      have hlength := hl.length_eq
      rw [hk.ends, List.length_nil] at hlength
      rw [List.length_append] at hrest
      omega
    have hdB := hl.skip hk.toLawful hlong
    rw [hd.skip_eq] at hdB
    have hd' : l'.start.Reads (l'.text ++ [.char '\n'])
        (l'.start.skip (l.text ++ [CodePoint.char '\n']).length) := by
      rw [htext]
      exact (hl.reads hdB hd).2
    rw [afterClosing_line hnl hd, afterClosing_line (by rwa [htext]) hd',
      jump_reads (hc.trans hd), jump_reads (hc'.trans hd')]
    exact ⟨(hk.next hl hdB hd).symm, .inl ⟨_, hdB⟩⟩

/-- The body of a heredoc is the same in both texts. -/
theorem resolve_beside (hk : k.Extends shift tickets) (hn : nested.Sound)
    (hs : nested.Beside k n nested') {pending pending' : PendingHeredoc}
    (htag : pending'.tag = pending.tag) (hticket : pending'.ticket = pending.ticket + tickets)
    (htagged : pending.Tagged) (hc : c.Beside k u c') (hlen : c'.rest.length ≤ n)
    {b : HeredocBody} (h : pending.resolve nested c = .ok b) :
    ∃ b', pending'.resolve nested' c' = .ok b' ∧ b' = b.seen k.left ∧
      (c.jump b.resume).Meets k (c'.jump b'.resume) := by
  obtain ⟨body, line, closing, fs, hsplit, hfs, rfl⟩ := resolve_eq_ok.mp h
  obtain ⟨body', line', v, hsplit', hbody, htext, hline⟩ :=
    splitAtClosing?_beside hk htagged.terminator_ne_nil hc hlen hsplit
  obtain ⟨fs', hfs', hmap⟩ := scanLines_beside hk hn hs hbody hc hlen hfs
  obtain ⟨hlines, hwhole, hclosing⟩ := splitAtClosing?_lines hsplit
  obtain ⟨hlines', -, -⟩ := splitAtClosing?_lines hsplit'
  obtain ⟨cs, hcs⟩ := linesTo_reads hlines
  obtain ⟨cs', hcs'⟩ := linesTo_reads hlines'
  obtain ⟨tail, -, -, hrest⟩ := afterClosing_passes hcs hwhole
  obtain ⟨-, -, hlength⟩ := marker_stands _ (by rw [hrest, List.append_assoc]) hclosing
  have hpos : 0 < closing.text.length := by
    rw [splitAtClosing?_text hsplit]
    exact List.length_pos_iff.mpr htagged.terminator_ne_nil
  have hle : line.text.length ≤ v.length := by
    have hlong := hline.length_eq
    rw [hk.ends, List.length_nil, hrest, List.append_assoc, List.length_append] at hlong
    omega
  obtain ⟨hmarker, hspan⟩ := marker_beside hk.toLawful hc hline closing (by omega)
  obtain ⟨hafter, hmeets⟩ := afterClosing_beside hk hcs hcs' hline htext hwhole
    (List.length_pos_iff.mp (by omega))
  rw [← htag] at hsplit' hfs'
  refine ⟨_, resolve_eq_ok.mpr ⟨body', line', closing, fs', hsplit', hfs', rfl⟩, ?_, hmeets⟩
  rw [hk.right] at hmap hmarker hspan
  rw [Token.seen_plain] at hmarker
  rw [← Fragment.seenAll_eq_map, ← Fragment.seenAll_eq_map, Fragment.seenAll_plain] at hmap
  rw [HeredocBody.seen, hk.ticket, hticket, hmap, hafter, ← hspan, hmarker]
  rfl

/-- Two heredocs that wait for the same body. -/
structure Beside (tickets : Nat) (pending pending' : PendingHeredoc) : Prop where
  tag : pending'.tag = pending.tag
  ticket : pending'.ticket = pending.ticket + tickets

end PendingHeredoc

/-- The bodies of heredocs that wait are the same in both texts, and scanning goes on alike after
them. -/
theorem resolveAll_beside (hk : k.Extends shift tickets) {nested nested' : NestedScan} {n : Nat}
    (hn : nested.Sound) (hs : nested.Beside k n nested') {waiting waiting' : List PendingHeredoc}
    (hw : List.Forall₂ (PendingHeredoc.Beside tickets) waiting waiting')
    (htagged : ∀ p ∈ waiting, p.Tagged) {c c' d : Cursor} {bodies : List HeredocBody}
    (hc : c.Meets k c') (hlen : c'.rest.length ≤ n)
    (h : resolveAll nested waiting c = .ok (bodies, d)) :
    ∃ d', resolveAll nested' waiting' c' = .ok (bodies.map (HeredocBody.seen k.left), d') ∧
      d.Meets k d' := by
  induction hw generalizing c c' bodies with
  | nil =>
    cases h
    exact ⟨c', rfl, hc⟩
  | @cons p p' waiting waiting' hp hw ih =>
    obtain ⟨htagged, hrest⟩ := List.forall_mem_cons.mp htagged
    obtain ⟨b, bodies, hb, hbodies, rfl⟩ := resolveAll_cons_eq_ok.mp h
    rcases hc with ⟨u, hc⟩ | hover
    · obtain ⟨b', hb', rfl, hmeets⟩ :=
        PendingHeredoc.resolve_beside hk hn hs hp.tag hp.ticket htagged hc hlen hb
      obtain ⟨cs, hpasses⟩ := PendingHeredoc.resolve_passes hb'
      have hle : (c'.jump (b.seen k.left).resume).rest.length ≤ n := by
        rw [hpasses.rest, List.length_append] at hlen
        omega
      obtain ⟨d', hbodies', hd⟩ := ih hrest hmeets hle hbodies
      exact ⟨d', resolveAll_cons_eq_ok.mpr ⟨_, _, hb', hbodies', rfl⟩, hd⟩
    · -- No body is left to be read at the end of the first text.
      have hresolved : PendingHeredoc.Resolved [] c b :=
        PendingHeredoc.resolve_resolved hn htagged (fun hne => absurd hover.rest hne) hb
      exact absurd hover.rest hresolved.rest_ne_nil

end ManifestTree
