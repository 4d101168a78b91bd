import ManifestTree.Proofs.ClosingLines
import ManifestTree.Proofs.ScanRefusals

/-!
# Where a heredoc ends

A waiting heredoc ends at the first line that closes it.  Reading its body can fail besides only in
an interpolation of the body, and the scan of the inside of an interpolation never lacks a
terminator, since no heredoc is opened there.  So a heredoc without an end is reported just if no
line closes it.
-/

namespace ManifestTree

open Text

/-! ## Insides of interpolations -/

/-- The error is not that of a heredoc without an end. -/
def SyntaxError.EndsHeredocs (e : SyntaxError) : Prop := e.kind ≠ .unterminatedHeredoc

/-- The scanner of interpolations reports no heredoc without an end. -/
def NestedScan.EndsHeredocs (nested : NestedScan) : Prop :=
  ∀ opener c, Refuses SyntaxError.EndsHeredocs (nested opener c)

theorem Fragments.scanFrom_endsHeredocs {nested : NestedScan} (hn : nested.EndsHeredocs)
    {r : Fragments.Reading} {fuel : Nat} {run c : Cursor} :
    Refuses SyntaxError.EndsHeredocs (Fragments.scanFrom nested r fuel run c) := by
  induction fuel generalizing run c with
  | zero => rintro e ⟨⟩
  | succ fuel ih =>
    have resumed {f : Fragment} {after : Cursor} :
        Refuses SyntaxError.EndsHeredocs (Fragments.scanFrom nested r fuel after after >>= fun p =>
          .ok (Fragments.content run c ++ f :: p.1, p.2)) :=
      refuses_bind ih fun _ _ => refuses_ok _
    unfold Fragments.scanFrom
    cases r.next c with
    | done => exact refuses_ok _
    | unterminated opener => exact refuses_reject (by rintro ⟨⟩)
    | escape k value => exact resumed
    | «variable» k => exact resumed
    | interpolation =>
      refine refuses_bind ?_ fun _ _ => resumed
      exact refuses_bind (hn _ _) fun _ _ => refuses_ok _
    | plain => exact ih

namespace ScanState

variable {nested : NestedScan} {s s' : ScanState}

theorem readNumber_endsHeredocs : Refuses SyntaxError.EndsHeredocs s.readNumber := by
  unfold readNumber
  split
  · rintro e ⟨⟩
  dsimp only
  split
  · exact refuses_reject (by rintro ⟨⟩)
  split
  · exact refuses_reject (by rintro ⟨⟩)
  · exact refuses_ok _

theorem readWord_endsHeredocs (c : CodePoint) :
    Refuses SyntaxError.EndsHeredocs (s.readWord c) := by
  unfold readWord readSymbol
  (repeat' split) <;> first | exact refuses_ok _ | exact refuses_reject (by rintro ⟨⟩)

/-- Inside an interpolation a heredoc tag is refused before it is looked at. -/
theorem readHeredocTag_endsHeredocs (ho : s.opener.isSome) :
    Refuses SyntaxError.EndsHeredocs s.readHeredocTag := by
  unfold readHeredocTag
  dsimp only
  split
  · exact refuses_reject (by rintro ⟨⟩)
  · exact refuses_reject (by rintro ⟨⟩)

theorem readToken_endsHeredocs (hn : nested.EndsHeredocs) (ho : s.opener.isSome) (c : CodePoint) :
    Refuses SyntaxError.EndsHeredocs (s.readToken nested c) := by
  unfold readToken
  split
  · unfold readVariable
    split
    · exact refuses_ok _
    · exact refuses_reject (by rintro ⟨⟩)
  split
  · exact refuses_bind (Fragments.scanFrom_endsHeredocs hn) fun _ _ => refuses_ok _
  split
  · exact readNumber_endsHeredocs
  split
  · exact readHeredocTag_endsHeredocs ho
  · exact readWord_endsHeredocs c

theorem step_endsHeredocs (hn : nested.EndsHeredocs) (ho : s.opener.isSome)
    (hq : s.queue.waiting = []) : Refuses SyntaxError.EndsHeredocs (s.step nested) := by
  unfold step
  split
  · exact refuses_ok _
  split
  · refine refuses_map _ ?_
    unfold newline
    rw [resolveHeredocs_idle]
    · exact refuses_ok _
    · exact hq
  split
  · exact refuses_ok _
  split
  · exact refuses_ok _
  split
  · refine refuses_map _ ?_
    unfold blockComment
    split
    · exact refuses_ok _
    · exact refuses_reject (by rintro ⟨⟩)
  split
  · exact refuses_ok _
  · exact refuses_map _ (readToken_endsHeredocs hn ho _)

/-- A run inside an interpolation, where no heredoc waits, reports none without an end. -/
theorem run_endsHeredocs {source : Text} {fuel : Nat} (hs : s.Ready source)
    (ho : s.opener.isSome) : Refuses SyntaxError.EndsHeredocs (run fuel s) := by
  induction fuel generalizing s with
  | zero => rintro e ⟨⟩
  | succ fuel ih =>
    have hn : (nestedRun fuel).EndsHeredocs := fun opener c =>
      refuses_bind (ih (start_ready source opener c) rfl) fun _ _ => refuses_ok _
    show Refuses _ (s.step (nestedRun fuel) >>= _)
    refine refuses_bind (step_endsHeredocs hn ho (hs.quiet ho)) fun r hstep => ?_
    cases r with
    | none =>
      obtain ⟨opener, hopener⟩ := Option.isSome_iff_exists.mp ho
      dsimp only
      unfold finish
      rw [hopener]
      dsimp only
      split
      · exact refuses_reject (by rintro ⟨⟩)
      · exact refuses_ok _
    | some s' =>
      obtain ⟨xs, hlays⟩ := step_lays (nestedRun_sound fuel) hs hstep
      exact ih (hlays.ready hs) (hlays.opener ▸ ho)

end ScanState

/-- The scan of the inside of an interpolation reports no heredoc without an end. -/
theorem Token.scanNested_endsHeredocs : NestedScan.EndsHeredocs Token.scanNested := fun opener c =>
  refuses_bind (ScanState.run_endsHeredocs (ScanState.start_ready [] opener c) rfl)
    fun _ _ => refuses_ok _

theorem Token.scanNested_sound : NestedScan.Sound Token.scanNested := fun opener c =>
  ScanState.nestedRun_sound (c.rest.length + 1) opener c

/-- It fails as a scan may. -/
theorem Token.scanNested_error {source : Text} {opener : Span} {c : Cursor} {f : Failure}
    (hat : Cursor.At source c) (h : Token.scanNested opener c = .error f) :
    f.OfScanning source := by
  have := ScanState.nestedRun_settles source (c.rest.length + 1) opener c hat (Nat.lt_succ_self _)
  change Scans source (Token.scanNested opener c) _ at this
  rwa [h] at this

/-! ## Failures of a body -/

/-- The inside of an interpolation cannot be scanned, whose opener is read before the offset `stop`
on the way from a cursor. -/
def InterpolationFails (nested : NestedScan) (c : Cursor) (stop : Nat) (f : Failure) : Prop :=
  ∃ xs d cs, c.Reads xs d ∧ d.offset < stop ∧ d.rest = .char '$' :: .char '\x7b' :: cs ∧
    nested (d.here 2) (d.skip 2) = .error f

theorem InterpolationFails.mono {nested : NestedScan} {c b : Cursor} {xs : Text}
    {stop stop' : Nat} {f : Failure} (h : InterpolationFails nested b stop f) (hb : c.Reads xs b)
    (hle : stop ≤ stop') : InterpolationFails nested c stop' f := by
  obtain ⟨ys, d, cs, hread, hlt, hopener, hnested⟩ := h
  exact ⟨xs ++ ys, d, cs, hb.trans hread, by omega, hopener, hnested⟩

namespace Fragments

variable {nested : NestedScan}

theorem Reading.next_offset {escapes : Text} {interpolate : Bool} {stop : Nat} {c : Cursor}
    (h : Reading.next ⟨escapes, interpolate, .offset stop⟩ c ≠ .done) : c.offset < stop := by
  by_contra hle
  refine h ?_
  unfold Reading.next
  rw [if_pos]
  simpa [Stop.holds] using hle

theorem Reading.next_interpolation {r : Reading} {c : Cursor} (h : r.next c = .interpolation) :
    r.interpolate := by
  unfold Reading.next at h
  split at h
  · cases h
  split at h
  · split at h <;> cases h
  unfold Reading.special at h
  split at h
  · cases h
  split at h
  · assumption
  · cases h

/-- Fragments up to an offset fail only in an interpolation. -/
theorem scanFrom_fails (hn : nested.Sound) {escapes : Text} {interpolate : Bool}
    {stop fuel : Nat} {run c : Cursor} {f : Failure} (hfuel : c.rest.length < fuel)
    (h : scanFrom nested ⟨escapes, interpolate, .offset stop⟩ fuel run c = .error f) :
    interpolate ∧ InterpolationFails nested c stop f := by
  induction fuel generalizing run c with
  | zero => exact absurd hfuel (Nat.not_lt_zero _)
  | succ fuel ih =>
    generalize hr : (⟨escapes, interpolate, .offset stop⟩ : Reading) = r at h ih
    have later {run after : Cursor} {cs : Text} (hread : c.Reads cs after) (hne : cs ≠ [])
        (h : scanFrom nested r fuel run after = .error f) :
        interpolate ∧ InterpolationFails nested c stop f := by
      have hlt : after.rest.length < fuel := by
        have := List.length_pos_iff.mpr hne
        rw [hread.rest, List.length_append] at hfuel
        omega
      obtain ⟨hi, hfails⟩ := ih hlt h
      exact ⟨hi, hfails.mono hread (Nat.le_refl _)⟩
    have resumed {g : Fragment} {after : Cursor} {cs : Text} (hread : c.Reads cs after)
        (hne : cs ≠ []) (h : (scanFrom nested r fuel after after >>= fun p =>
          .ok (content run c ++ g :: p.1, p.2)) = Except.error f) :
        interpolate ∧ InterpolationFails nested c stop f := by
      obtain h | ⟨p, -, h⟩ := bind_eq_error.mp h
      · exact later hread hne h
      · cases h
    have skipped {k : Nat} (hk : 0 < k) (hc : c.rest ≠ []) : c.rest.take k ≠ [] := by
      simp only [ne_eq, List.take_eq_nil_iff, hc, or_false]
      omega
    have hspec := @Reading.next_spec r c
    unfold scanFrom at h
    cases hnext : r.next c with
    | done =>
      simp only [hnext] at h
      cases h
    | unterminated opener =>
      obtain ⟨q, hq⟩ := Reading.unterminated hnext
      rw [← hr] at hq
      cases hq
    | escape k value =>
      simp only [hnext] at h hspec
      exact resumed (Cursor.reads_skip c k) (skipped hspec.2.1 hspec.1) h
    | «variable» k =>
      simp only [hnext] at h hspec
      exact resumed (Cursor.reads_skip c k) (skipped hspec.2 hspec.1) h
    | interpolation =>
      simp only [hnext] at h hspec
      obtain ⟨cs, hc⟩ := hspec
      obtain h | ⟨⟨g, after⟩, hg, h⟩ := bind_eq_error.mp h
      · obtain h | ⟨p, -, h⟩ := bind_eq_error.mp h
        · have hlt : c.offset < stop := Reading.next_offset (by rw [hr, hnext]; rintro ⟨⟩)
          have hi := Reading.next_interpolation hnext
          rw [← hr] at hi
          exact ⟨hi, [], c, cs, .refl c, hlt, hc, h⟩
        · cases h
      · obtain ⟨ws, ts, hread, hne, -⟩ := interpolation_sound hn hc hg
        exact resumed hread hne h
    | plain =>
      simp only [hnext] at h hspec
      exact later (Cursor.reads_skip c 1) (skipped Nat.one_pos hspec) h

end Fragments

namespace PendingHeredoc

open Fragments

/-- Body lines fail only in an interpolation that begins on them. -/
theorem scanLines_fails {nested : NestedScan} (hn : nested.Sound) {tag : HeredocTag}
    {indent : Option Nat} {chomp : Bool} {lines : List SourceLine} {c resume start stop : Cursor}
    {xs ys : Text} {f : Failure} (hl : LinesTo start lines stop) (hstart : c.Reads xs start)
    (hresume : c.Reads ys resume)
    (h : scanLines nested tag indent chomp resume lines = .error f) :
    tag.interpolates ∧ InterpolationFails nested c stop.offset f := by
  induction hl generalizing resume xs ys with
  | nil => cases h
  | @cons start next stop text more hnl hread hmore ih =>
    have hnext := hstart.trans hread
    obtain ⟨rest, hrest⟩ := linesTo_reads hmore
    have hle : lineStop (chomp && more.isEmpty) ⟨start, text⟩ ≤ stop.offset := by
      have hstop := lineStop_le (chomp && more.isEmpty) ⟨start, text⟩
      rw [hrest.offset, hread.offset]
      simp only [List.length_append, List.length_singleton] at hstop ⊢
      omega
    unfold scanLines at h
    dsimp only at h
    generalize lineStop (chomp && more.isEmpty) ⟨start, text⟩ = lineEnd at h hle
    have hbegin := lineBegin?_spec indent resume ⟨start, text⟩ lineEnd hread
    cases hb : lineBegin? indent resume ⟨start, text⟩ lineEnd with
    | none =>
      simp only [hb] at h
      exact ih hnext hresume h
    | some b =>
      simp only [hb] at h hbegin
      obtain ⟨zs, hzs⟩ : ∃ zs, c.Reads zs b := by
        rcases hbegin with rfl | ⟨ws, hws, -⟩
        · exact ⟨ys, hresume⟩
        · exact ⟨xs ++ ws, hstart.trans hws⟩
      obtain h | ⟨⟨front, last⟩, hfront, h⟩ := bind_eq_error.mp h
      · obtain ⟨hi, hfails⟩ := scanFrom_fails hn (Nat.lt_succ_self _) h
        exact ⟨hi, hfails.mono hzs hle⟩
      · obtain ⟨ds, hlast, -⟩ := (scan_scanned hn hfront).tiles
        obtain h | ⟨back, -, h⟩ := bind_eq_error.mp h
        · exact ih hnext (hzs.trans hlast) h
        · cases h

/-! ## Closed bodies -/

/-- The body that a line closes with the given parts, where `before` stands before that line and
`after` is what follows it. -/
def closedBody (pending : PendingHeredoc) (c : Cursor) (before line after : Text)
    (p : ClosingParts) (fragments : List Fragment) : HeredocBody :=
  let start := c.pos.after (before ++ p.indent)
  let marked := p.margin ++ (p.chomp ++ pending.tag.terminator)
  let stop := start.after marked
  .mk pending.ticket fragments ⟨p.margin ≠ [], p.chomp ≠ []⟩
    (.mk .heredocEnd marked (Span.between start stop) .plain)
    { Span.between c.pos c.pos with stop := stop.offset }
    ⟨c.offset + before.length + line.length + min 1 after.length, (c.pos.after before).line + 1, 1⟩

/-- Scanning goes on after the line feed of the closing line, or at the end of the source. -/
theorem afterClosing_eq {cs before line after : Text} (h : LineOf cs before line after)
    (p : Position) : afterClosing ⟨⟨p, line ++ after⟩, line⟩ =
      ⟨p.offset + line.length + min 1 after.length, p.line + 1, 1⟩ := by
  cases after with
  | nil =>
    rw [afterClosing_end (List.append_nil _)]
    rfl
  | cons d after =>
    obtain rfl := h.ends d rfl
    have hread : Cursor.Reads ⟨p, line ++ .char '\n' :: after⟩ (line ++ [.char '\n'])
        ⟨p.after (line ++ [.char '\n']), after⟩ := ⟨by simp, rfl⟩
    rw [afterClosing_line h.unbroken hread]
    simp only [after_line h.unbroken, List.length_cons]
    congr 1

/-- The marker is the text from after the indentation through the terminator. -/
theorem marker_eq {terminator line : Text} {p : ClosingParts} (h : p.Reads terminator line)
    (pos : Position) (after : Text) :
    marker ⟨⟨pos, line ++ after⟩, line⟩ (p.closing terminator) =
      .mk .heredocEnd (p.margin ++ (p.chomp ++ terminator))
        (Span.between (pos.after p.indent)
          ((pos.after p.indent).after (p.margin ++ (p.chomp ++ terminator)))) .plain := by
  set marked := p.margin ++ (p.chomp ++ terminator) with hmarked
  have hrest : line ++ after = p.indent ++ (marked ++ (p.trailing ++ p.lineEnd ++ after)) := by
    rw [h.line_eq, hmarked]
    simp only [List.append_assoc]
  have hindent := Cursor.reads_skip_length (c := ⟨pos, line ++ after⟩) hrest
  have hlater : (Cursor.skip ⟨pos, line ++ after⟩ p.indent.length).rest =
      marked ++ (p.trailing ++ p.lineEnd ++ after) := by
    simp [Cursor.skip, hrest]
  have hread := Cursor.reads_skip_length hlater
  have hlength : (p.closing terminator).markers + terminator.length = marked.length := by
    simp [hmarked, ClosingParts.closing, Nat.add_assoc]
  unfold marker
  dsimp only [ClosingParts.closing] at hlength ⊢
  rw [hlength, hread.upTo_eq, hread.spanTo_eq, hindent.pos]

/-- Where the search finds a closing line, the outcome is the closed body if its lines can be
scanned. -/
theorem resolve_of_split {nested : NestedScan} {pending : PendingHeredoc} {c : Cursor}
    {before line after : Text} {p : ClosingParts} {lines : List SourceLine}
    (hline : LineOf c.rest before line after) (hp : p.Reads pending.tag.terminator line)
    (hsplit : splitAtClosing? pending.tag.terminator c.lines =
      some (lines, ⟨⟨c.pos.after before, line ++ after⟩, line⟩, p.closing pending.tag.terminator)) :
    pending.resolve nested c =
      pending.closedBody c before line after p <$> scanLines nested pending.tag
        (if p.margin = [] then none else some p.indent.length) (p.chomp ≠ []) c lines := by
  have hindent : (if (p.closing pending.tag.terminator).trim.margin then
      some (p.closing pending.tag.terminator).indent else none) =
        if p.margin = [] then none else some p.indent.length := by
    by_cases hmargin : p.margin = [] <;> simp [ClosingParts.closing, hmargin]
  have hchomp : (p.closing pending.tag.terminator).trim.chomp = decide (p.chomp ≠ []) := rfl
  have hoffset : (c.pos.after before).offset = c.offset + before.length := Position.after_offset _ _
  unfold resolve
  rw [hsplit]
  dsimp only
  rw [hindent, hchomp, marker_eq hp, afterClosing_eq hline, hoffset, ← Position.after_append]
  generalize scanLines nested pending.tag _ _ c lines = fragments
  cases fragments <;> rfl

/-! ## The outcome -/

/-- What comes of reading the body of a waiting heredoc from a cursor on. -/
structure EndsAtFirst (source : Text) (pending : PendingHeredoc) (c : Cursor)
    (outcome : Except Failure HeredocBody) : Prop where
  /-- A heredoc without an end is reported just if no line closes it. -/
  missing : (∃ e, outcome = .error (.rejected e) ∧ e.kind = .unterminatedHeredoc) ↔
    ∀ before line after, LineOf c.rest before line after →
      ¬ IsClosingLine pending.tag.terminator line
  /-- The report names the terminator and points at the tag. -/
  reported : ∀ e, outcome = .error (.rejected e) → e.kind = .unterminatedHeredoc →
    e = ⟨.missingTerminator pending.tag.terminator, pending.span⟩
  /-- If a line closes it, then some line is the first to do so. -/
  first : (∃ before line after, LineOf c.rest before line after ∧
      IsClosingLine pending.tag.terminator line) →
    ∃ before line after p, FirstClosing pending.tag.terminator c.rest before line after p
  /-- The first such line closes the body, whose fragments are those of the lines before, unless the
  inside of an interpolation on these lines cannot be scanned. -/
  closed : ∀ before line after p,
    FirstClosing pending.tag.terminator c.rest before line after p →
      ∃ lines, LinesTo c lines ⟨c.pos.after before, line ++ after⟩ ∧
        ((∃ fragments, scanLines Token.scanNested pending.tag
            (if p.margin = [] then none else some p.indent.length) (p.chomp ≠ []) c lines =
              .ok fragments ∧
            outcome = .ok (pending.closedBody c before line after p fragments)) ∨
          ∃ f, outcome = .error f ∧ f.OfScanning source ∧ pending.tag.interpolates ∧
            InterpolationFails Token.scanNested c (c.offset + before.length) f)

/-- The inside of an interpolation fails as a scan may, and lacks no terminator. -/
theorem InterpolationFails.spec {source : Text} {c : Cursor} {stop : Nat} {f : Failure}
    (hat : Cursor.At source c) (h : InterpolationFails Token.scanNested c stop f) :
    f.OfScanning source ∧ ∀ e, f = .rejected e → e.kind ≠ .unterminatedHeredoc := by
  obtain ⟨xs, d, cs, hread, -, -, hnested⟩ := h
  refine ⟨Token.scanNested_error ((hread.at hat).skip 2) hnested, fun e he => ?_⟩
  exact Token.scanNested_endsHeredocs _ _ e (he ▸ hnested)

/-- A waiting heredoc with a plain terminator ends at the first closing line. -/
theorem resolve_endsAtFirst {source : Text} {pending : PendingHeredoc} {c : Cursor}
    (ht : PlainTerminator pending.tag.terminator) (hat : Cursor.At source c) :
    pending.EndsAtFirst source c (pending.resolve Token.scanNested c) := by
  obtain ⟨hnone, hall⟩ | ⟨before, line, after, p, lines, hfirst, hlines, hsplit⟩ :=
    splitAtClosing?_first ht c
  · have houtcome : pending.resolve Token.scanNested c =
        reject (.missingTerminator pending.tag.terminator) pending.span := by
      unfold resolve
      rw [hnone]
    rw [houtcome]
    refine ⟨⟨fun _ => hall, fun _ => ⟨_, rfl, rfl⟩⟩, ?_, ?_, ?_⟩
    · rintro e ⟨⟩ -
      rfl
    · rintro ⟨before, line, after, hline, hclosing⟩
      exact absurd hclosing (hall before line after hline)
    · intro before line after p h
      exact absurd ⟨p, h.reads⟩ (hall before line after h.lineOf)
  · have hclosed (p' : ClosingParts)
        (h : FirstClosing pending.tag.terminator c.rest before line after p') :
        (∃ fragments, scanLines Token.scanNested pending.tag
            (if p'.margin = [] then none else some p'.indent.length) (p'.chomp ≠ []) c lines =
              .ok fragments ∧ pending.resolve Token.scanNested c =
                .ok (pending.closedBody c before line after p' fragments)) ∨
          ∃ f, pending.resolve Token.scanNested c = .error f ∧ pending.tag.interpolates ∧
            InterpolationFails Token.scanNested c (c.offset + before.length) f := by
      rw [(hfirst.unique ht h).2.2.2] at hsplit
      rw [resolve_of_split h.lineOf h.reads hsplit]
      cases hs : scanLines Token.scanNested pending.tag
        (if p'.margin = [] then none else some p'.indent.length) (p'.chomp ≠ []) c lines with
      | ok fragments => exact .inl ⟨fragments, rfl, rfl⟩
      | error f =>
        obtain ⟨hi, hfails⟩ := scanLines_fails Token.scanNested_sound hlines (.refl c) (.refl c) hs
        have hoffset : (c.pos.after before).offset = c.offset + before.length :=
          Position.after_offset _ _
        exact .inr ⟨f, rfl, hi, hoffset ▸ hfails⟩
    have hkind (e : SyntaxError)
        (he : pending.resolve Token.scanNested c = .error (.rejected e)) :
        e.kind ≠ .unterminatedHeredoc := by
      obtain ⟨fragments, -, hok⟩ | ⟨f, herror, -, hfails⟩ := hclosed p hfirst
      · cases hok.symm.trans he
      · cases herror.symm.trans he
        exact (InterpolationFails.spec hat hfails).2 e rfl
    refine ⟨⟨?_, fun hall => ?_⟩, fun e he hk => absurd hk (hkind e he),
      fun _ => ⟨before, line, after, p, hfirst⟩, fun before' line' after' p' h => ?_⟩
    · rintro ⟨e, he, hk⟩
      exact absurd hk (hkind e he)
    · exact absurd ⟨p, hfirst.reads⟩ (hall before line after hfirst.lineOf)
    · obtain ⟨rfl, rfl, rfl, -⟩ := hfirst.unique ht h
      refine ⟨lines, hlines, (hclosed p' h).imp_right ?_⟩
      rintro ⟨f, herror, hi, hfails⟩
      exact ⟨f, herror, (InterpolationFails.spec hat hfails).1, hi, hfails⟩

end PendingHeredoc

/-! ## The front of the queue -/

/-- A text that trimming leaves as it is neither begins nor ends with what is trimmed. -/
theorem Text.trimIf_ends {member : CodePoint → Bool} {cs : Text} (h : trimIf member cs = cs) :
    (∀ c ∈ cs.head?, member c = false) ∧ ∀ c ∈ cs.getLast?, member c = false := by
  have hlength := congrArg List.length h
  have hfront := (List.dropWhile_suffix member (l := cs)).length_le
  have hback := (List.dropWhile_suffix member (l := (cs.dropWhile member).reverse)).length_le
  simp only [trimIf, List.length_reverse] at hlength hback
  have hwhole : cs.dropWhile member = cs := by
    exact (List.dropWhile_suffix member).eq_of_length (by omega)
  rw [hwhole] at hlength
  have hreverse : cs.reverse.dropWhile member = cs.reverse :=
    (List.dropWhile_suffix member).eq_of_length (by rw [List.length_reverse]; omega)
  have head_of {ds : Text} (hd : ds.dropWhile member = ds) :
      ∀ c ∈ ds.head?, member c = false := by
    intro c hc
    have := List.head?_dropWhile_not member ds
    rw [hd, Option.mem_def.mp hc] at this
    exact this
  refine ⟨head_of hwhole, fun c hc => head_of hreverse c ?_⟩
  rwa [List.head?_reverse]

/-- A terminator is not empty and has no white space at its ends. -/
theorem HeredocTag.parse_terminator {text : Text} {tag : HeredocTag}
    (h : HeredocTag.parse text = .ok tag) : tag.terminator ≠ [] ∧
      (∀ c ∈ tag.terminator.head?, isSpace c = false) ∧
        ∀ c ∈ tag.terminator.getLast?, isSpace c = false := by
  unfold HeredocTag.parse at h
  split at h
  · cases h
  split at h
  · cases h
  split at h
  · cases h
  rename_i hterminator
  cases h
  simp only [Bool.or_eq_true, decide_eq_true_eq, not_or, not_not] at hterminator
  refine ⟨?_, Text.trimIf_ends hterminator.2⟩
  rintro hnil
  simp only at hnil
  simp [hnil] at hterminator

/-- A terminator that does not begin with a sign and holds no carriage return is plain. -/
theorem HeredocTag.plainTerminator {text : Text} {tag : HeredocTag}
    (h : HeredocTag.parse text = .ok tag)
    (hsign : ∀ c ∈ tag.terminator.head?, c ≠ '|' ∧ c ≠ '-')
    (hreturn : .char '\r' ∉ tag.terminator) :
    PlainTerminator tag.terminator := by
  obtain ⟨hne, hfirst, hlast⟩ := HeredocTag.parse_terminator h
  have blank {c : CodePoint} (hc : isSpace c = false) : isBlank c = false := by
    by_contra hb
    rw [isSpace_of_isBlank (by simpa using hb)] at hc
    cases hc
  exact ⟨hne, fun c hc => ⟨blank (hfirst c hc), hsign c hc⟩, fun c hc => blank (hlast c hc),
    hreturn⟩

/-- The oldest waiting heredoc leaves the queue, and unless its terminator could be taken for
something else it ends at the first line that closes it. -/
theorem HeredocQueue.resolveNext_endsAtFirst {source : Text} {q : HeredocQueue}
    {pending : PendingHeredoc} {more : List PendingHeredoc} {c : Cursor}
    (hq : q.waiting = pending :: more) (htagged : pending.Tagged)
    (hsign : ∀ ch ∈ pending.tag.terminator.head?, ch ≠ '|' ∧ ch ≠ '-')
    (hreturn : .char '\r' ∉ pending.tag.terminator) (hat : Cursor.At source c) :
    ∃ outcome, q.resolveNext Token.scanNested c = some (outcome, { q with waiting := more }) ∧
      pending.EndsAtFirst source c outcome := by
  refine ⟨pending.resolve Token.scanNested c, ?_, ?_⟩
  · unfold resolveNext
    rw [hq]
  · exact PendingHeredoc.resolve_endsAtFirst
      (HeredocTag.plainTerminator htagged hsign hreturn) hat

/-- A body with a margin, closed by its second line. -/
theorem HeredocQueue.resolveNext_endsAtFirst_margin :
    ∃ (pending : PendingHeredoc) (c : Cursor) (outcome : Except Failure HeredocBody),
    pending.tag.terminator = Text.ofString "END" ∧ pending.Tagged ∧
      (∀ ch ∈ pending.tag.terminator.head?, ch ≠ '|' ∧ ch ≠ '-') ∧
      .char '\r' ∉ pending.tag.terminator ∧ Cursor.At (Text.ofString "@(END)\n  a\n  | END\nb") c ∧
      c.rest = Text.ofString "  a\n  | END\nb" ∧
      HeredocQueue.resolveNext ⟨1, [pending]⟩ Token.scanNested c = some (outcome, ⟨1, []⟩) ∧
      pending.EndsAtFirst (Text.ofString "@(END)\n  a\n  | END\nb") c outcome := by
  let pending : PendingHeredoc :=
    ⟨0, ⟨Text.ofString "END", Text.ofString "END", .bare, none, none⟩, ⟨0, 6, 1, 1⟩⟩
  have htagged : pending.Tagged := by cbv
  have hsign : ∀ ch ∈ pending.tag.terminator.head?, ch ≠ '|' ∧ ch ≠ '-' := by
    rintro ch ⟨⟩
    decide
  have hreturn : .char '\r' ∉ pending.tag.terminator := by decide
  have hat : Cursor.At (Text.ofString "@(END)\n  a\n  | END\nb")
      ((Cursor.ofSource (Text.ofString "@(END)\n  a\n  | END\nb")).skip 7) :=
    (Cursor.At.ofSource _).skip 7
  obtain ⟨outcome, hnext, hends⟩ := HeredocQueue.resolveNext_endsAtFirst
    (q := ⟨1, [pending]⟩) rfl htagged hsign hreturn hat
  exact ⟨pending, _, outcome, rfl, htagged, hsign, hreturn, hat, rfl, hnext, hends⟩

end ManifestTree
