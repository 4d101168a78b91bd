import ManifestTree.Proofs.HeredocClosings
import ManifestTree.Proofs.JoinedScans

/-!
# Tags that a line can close

A heredoc whose terminator stands alone on the line after its tag should be closed by that line.  It
is, unless the terminator begins with a sign, which is taken for a marker, or holds a carriage
return, which no closing line may.  Such a tag is accepted, and then no line of this kind closes it.
-/

namespace ManifestTree

open Text

/-! ## Terminators of tags -/

namespace HeredocTag

theorem untilQuote?_subset {quote : CodePoint} {cs inside rest : Text}
    (h : untilQuote? quote cs = some (inside, rest)) : inside ⊆ cs := by
  unfold untilQuote? at h
  dsimp only at h
  split at h
  · split at h
    · cases h
      exact (List.takeWhile_sublist _).subset
    · cases h
  · cases h

theorem terminator?_subset {cs terminator rest : Text} {quoting : Quoting}
    (h : terminator? cs = some (terminator, quoting, rest)) : terminator ⊆ cs := by
  unfold terminator? at h
  split at h
  · cases h
  rename_i c cs
  split at h
  · obtain ⟨⟨inside, after⟩, hinside, he⟩ := Option.map_eq_some_iff.mp h
    cases he
    exact List.subset_cons_of_subset c (untilQuote?_subset hinside)
  split at h
  · obtain ⟨⟨inside, after⟩, hinside, he⟩ := Option.map_eq_some_iff.mp h
    cases he
    exact List.subset_cons_of_subset c (untilQuote?_subset hinside)
  split at h
  · cases h
    exact List.cons_subset_cons c (List.takeWhile_sublist _).subset
  · cases h

/-- The characters of a terminator are characters of its tag. -/
theorem parse_subset {text : Text} {tag : HeredocTag} (h : HeredocTag.parse text = .ok tag) :
    tag.terminator ⊆ text := by
  unfold HeredocTag.parse at h
  split at h
  · cases h
  split at h
  · cases h
  rename_i terminator quoting label escapes hparts
  split at h
  · cases h
  cases h
  unfold parts? at hparts
  obtain ⟨⟨t, q, rest⟩, hterminator, hparts⟩ := Option.bind_eq_some_iff.mp hparts
  have ht : t = terminator := by
    dsimp only at hparts
    split at hparts
    · cases hparts
    split at hparts <;> cases hparts
    rfl
  rw [← ht]
  exact List.Subset.trans (terminator?_subset hterminator) (List.dropWhile_sublist isSpace).subset

end HeredocTag

/-! ## The line after the tag -/

/-- No carriage return breaks the terminator, and it does not begin with a sign. -/
def HeredocTag.Closable (tag : HeredocTag) : Prop :=
  .char '\r' ∉ tag.terminator ∧ ∀ c ∈ tag.terminator.head?, c ≠ '|' ∧ c ≠ '-'

/-- A text that is read as its own terminator has nothing around it. -/
theorem ClosingParts.Reads.alone {p : ClosingParts} {terminator : Text}
    (h : p.Reads terminator terminator) : p = ⟨[], [], [], [], []⟩ := by
  obtain ⟨indent, margin, chomp, trailing, lineEnd⟩ := p
  have hlength := congrArg List.length h.line_eq
  simp only [List.length_append] at hlength
  simp only [mk.injEq, ← List.length_eq_zero_iff]
  omega

/-- A terminator alone on its line is read with nothing around it. -/
theorem ClosingParts.reads_alone (terminator : Text) :
    ClosingParts.Reads ⟨[], [], [], [], []⟩ terminator terminator :=
  ⟨by simp, nofun, .inl rfl, .inl rfl, nofun, .inl rfl⟩

/-- A sign at the start of a line is taken for a marker. -/
theorem closingText?_sign {sign : CodePoint} {cs : Text} {closing : ClosingText}
    (hsign : sign = '|' ∨ sign = '-') (h : closingText? (sign :: cs) = some closing) :
    closing.markers ≠ 0 := by
  obtain ⟨lineEnd, hline, hend⟩ := dropReturn_spec (sign :: cs)
  unfold closingText? at h
  dsimp only at h
  split at h
  · cases h
  generalize dropReturn (sign :: cs) = body at h hline
  cases body with
  | nil =>
    rcases hend with rfl | rfl
    · cases hline
    · cases hline
      rcases hsign with h | h <;> cases h
  | cons c body =>
    cases hline
    cases h
    rcases hsign with rfl | rfl <;> simp [markerLength, isBlank]

/-- Where a terminator is alone on its line, it is read there just if it can be taken for nothing
else. -/
theorem HeredocTag.closable_iff {text : Text} {tag : HeredocTag}
    (h : HeredocTag.parse text = .ok tag) : tag.Closable ↔
      ∃ closing, closingText? tag.terminator = some closing ∧ closing.text = tag.terminator := by
  constructor
  · rintro ⟨hreturn, hsign⟩
    have ht := HeredocTag.plainTerminator h hsign hreturn
    exact ⟨_, (ClosingParts.reads_alone tag.terminator).closingText? ht, rfl⟩
  · rintro ⟨closing, hclosing, htext⟩
    obtain ⟨p, hp, hparts⟩ := closingText?_reads hclosing
    rw [htext] at hp hparts
    refine ⟨fun hreturn => ?_, fun c hc => ?_⟩
    · have hlast : tag.terminator.getLast? ≠ some (.char '\r') := fun hlast => by
        have := (HeredocTag.parse_terminator h).2.2 '\r' hlast
        cases this
      unfold closingText? dropReturn at hclosing
      rw [if_neg hlast] at hclosing
      dsimp only at hclosing
      rw [if_pos (by simpa using hreturn)] at hclosing
      cases hclosing
    · obtain ⟨cs, hcs⟩ := List.head?_eq_some_iff.mp hc
      rw [hcs] at hclosing
      rw [hp.alone] at hparts
      refine ⟨fun hbar => ?_, fun hdash => ?_⟩
      · exact closingText?_sign (.inl hbar) hclosing (by rw [hparts]; rfl)
      · exact closingText?_sign (.inr hdash) hclosing (by rw [hparts]; rfl)

/-- What comes of a heredoc whose terminator stands alone on the line where its body begins. -/
theorem PendingHeredoc.resolve_alone (nested : NestedScan) (pending : PendingHeredoc) {c : Cursor}
    (htagged : pending.Tagged) (hline : .char '\n' ∉ pending.tag.terminator)
    (hc : c.rest = pending.tag.terminator ++ [.char '\n']) :
    (pending.tag.Closable → pending.resolve nested c =
      .ok (pending.closedBody c [] pending.tag.terminator [.char '\n'] ⟨[], [], [], [], []⟩ [])) ∧
    (¬ pending.tag.Closable → pending.resolve nested c =
      reject (.missingTerminator pending.tag.terminator) pending.span) := by
  have hlines := Cursor.lines_line hc hline
  have hlast : splitAtClosing? pending.tag.terminator
      (Cursor.lines ⟨c.pos.after (pending.tag.terminator ++ [.char '\n']), []⟩) = none :=
    splitAtClosing?_nil htagged.terminator_ne_nil _
  constructor
  · rintro ⟨hreturn, hsign⟩
    have ht := HeredocTag.plainTerminator htagged hsign hreturn
    have hp := ClosingParts.reads_alone pending.tag.terminator
    have hstart : (⟨c.pos.after [], pending.tag.terminator ++ [.char '\n']⟩ : Cursor) = c := by
      rw [← hc]
      rfl
    have hsplit : splitAtClosing? pending.tag.terminator c.lines = some ([],
        ⟨⟨c.pos.after [], pending.tag.terminator ++ [.char '\n']⟩, pending.tag.terminator⟩,
        ClosingParts.closing ⟨[], [], [], [], []⟩ pending.tag.terminator) := by
      rw [hlines, splitAtClosing?, hp.closingText? ht, hstart]
      exact if_pos rfl
    have hof : LineOf c.rest [] pending.tag.terminator [.char '\n'] := by
      rw [hc]
      exact (LineOf.line_iff hline).mpr (.inl ⟨rfl, rfl, rfl⟩)
    rw [resolve_of_split hof hp hsplit]
    rfl
  · intro hclosable
    rw [HeredocTag.closable_iff htagged] at hclosable
    have hnone : splitAtClosing? pending.tag.terminator c.lines = none := by
      rw [hlines, splitAtClosing?, hlast]
      cases hclosing : closingText? pending.tag.terminator with
      | none => rfl
      | some closing => exact if_neg fun htext => hclosable ⟨closing, hclosing, htext⟩
    unfold resolve
    rw [hnone]

/-- The source that opens a heredoc and has its terminator alone on the next line. -/
def HeredocTag.closedSource (tag : HeredocTag) : Text :=
  .char '@' :: .char '(' ::
    (tag.text ++ .char ')' :: .char '\n' :: (tag.terminator ++ [.char '\n']))

def HeredocTag.openedSpan (tag : HeredocTag) : Span := ⟨0, tag.text.length + 3, 1, 1⟩

namespace ScanState

/-- The scan of a source after the heredoc tag at its start. -/
def afterTag (tag : HeredocTag) (rest : Text) : ScanState where
  cursor := ⟨Position.start.after (.char '@' :: .char '(' :: (tag.text ++ [.char ')'])), rest⟩
  opener := none
  depth := 0
  last := some .heredoc
  tokens := [.mk .heredoc (.char '@' :: .char '(' :: (tag.text ++ [.char ')']))
      tag.openedSpan (.heredoc tag none)]
  comments := []
  queue := ⟨1, [⟨0, tag, tag.openedSpan⟩]⟩
  bodies := []

theorem readHeredocTag_opens {s : ScanState} {text rest : Text} {pending : PendingHeredoc}
    {queue : HeredocQueue}
    (hc : s.cursor.rest = .char '@' :: .char '(' :: text ++ .char ')' :: rest)
    (ho : s.opener = none) (hparen : .char ')' ∉ text) (hline : .char '\n' ∉ text)
    (hqueue : s.queue.enqueue text (Span.between s.cursor.pos
      (s.cursor.pos.after (.char '@' :: .char '(' :: (text ++ [.char ')'])))) =
          .ok (pending, queue)) :
    ∃ after, s.cursor.Reads (.char '@' :: .char '(' :: (text ++ [.char ')'])) after ∧
      s.readHeredocTag =
        .ok ({ s with queue }.emit .heredoc after (.heredoc pending.tag none)) := by
  have hinside : (s.cursor.rest.drop 2).takeWhile (fun ch => ch ≠ .char ')' && ch ≠ .char '\n') =
      text := by
    rw [hc]
    show (text ++ .char ')' :: rest).takeWhile (fun ch => ch ≠ .char ')' && ch ≠ .char '\n') = text
    rw [List.takeWhile_append_of_pos]
    · simp
    · intro ch hch
      simp only [Bool.and_eq_true, decide_eq_true_eq]
      exact ⟨fun he => hparen (he ▸ hch), fun he => hline (he ▸ hch)⟩
  have hclose : s.cursor.Reads (.char '@' :: .char '(' :: text) (s.cursor.skip (text.length + 2)) :=
    Cursor.reads_skip_length hc
  have hrest : (s.cursor.skip (text.length + 2)).rest = .char ')' :: rest :=
    (List.append_cancel_left (hc.symm.trans hclose.rest)).symm
  have hafter : s.cursor.Reads (.char '@' :: .char '(' :: (text ++ [.char ')']))
      ((s.cursor.skip (text.length + 2)).skip 1) :=
    hclose.trans (Cursor.reads_skip_one hrest)
  refine ⟨_, hafter, ?_⟩
  unfold readHeredocTag
  dsimp only
  rw [hinside, hrest, if_neg (by simp), if_neg (by simp [ho]), hafter.spanTo_eq, hqueue]
  rfl

/-- A heredoc tag at the start of a source is read first. -/
theorem step_opened {nested : NestedScan} {tag : HeredocTag} {rest : Text}
    (h : HeredocTag.parse tag.text = .ok tag) (hparen : .char ')' ∉ tag.text)
    (hline : .char '\n' ∉ tag.text) :
    (start none (Cursor.ofSource (.char '@' :: .char '(' :: (tag.text ++ .char ')' :: rest)))).step
        nested =
      .ok (some (afterTag tag rest)) := by
  set s := start none (Cursor.ofSource (.char '@' :: .char '(' :: (tag.text ++ .char ')' :: rest)))
      with hs
  have hspan : Span.between s.cursor.pos
      (s.cursor.pos.after (.char '@' :: .char '(' :: (tag.text ++ [.char ')']))) =
      tag.openedSpan := by
    simp only [Span.between, Position.after_offset, HeredocTag.openedSpan, hs, start,
      Cursor.ofSource, Position.start, List.length_cons, List.length_append, List.length_nil,
      Span.mk.injEq]
    omega
  have hqueue : s.queue.enqueue tag.text
      (Span.between s.cursor.pos
          (s.cursor.pos.after (.char '@' :: .char '(' :: (tag.text ++ [.char ')'])))) =
        .ok (⟨0, tag, tag.openedSpan⟩, ⟨1, [⟨0, tag, tag.openedSpan⟩]⟩) := by
    unfold HeredocQueue.enqueue
    rw [h, hspan]
    rfl
  obtain ⟨after, hread, hopens⟩ := readHeredocTag_opens rfl rfl hparen hline hqueue
  obtain rfl : after =
      ⟨Position.start.after (.char '@' :: .char '(' :: (tag.text ++ [.char ')'])), rest⟩ :=
    hread.unique ⟨by simp [hs, start, Cursor.ofSource], rfl⟩
  rw [step_at_tag rfl, hopens]
  unfold emit
  dsimp only
  rw [hread.upTo_eq, hread.spanTo_eq, hspan]
  rfl

/-- At a line end the bodies of waiting heredocs are read. -/
theorem step_line {nested : NestedScan} {s : ScanState} {cs : Text}
    (hc : s.cursor.rest = .char '\n' :: cs) : s.step nested = some <$> s.newline nested := by
  unfold step
  rw [hc]
  rfl

/-- The bodies of waiting heredocs are read from the line after on. -/
theorem newline_eq {nested : NestedScan} (s : ScanState) :
    s.newline nested = resolveAll nested s.queue.waiting (s.cursor.skip 1) >>= fun p =>
      .ok { s with
        cursor := p.2
        bodies := s.bodies ++ p.1
        queue := { s.queue with waiting := [] } } := rfl

/-- The scan goes on with the body of the heredoc, and ends if that takes the rest of the source. -/
theorem run_opened (fuel : Nat) {tag : HeredocTag} {rest : Text} {c : Cursor}
    (hc : c = ⟨Position.start.after
        (.char '@' :: .char '(' :: (tag.text ++ [.char ')', .char '\n'])), rest⟩) :
    (∀ f, PendingHeredoc.resolve (nestedRun (fuel + 1)) ⟨0, tag, tag.openedSpan⟩ c = .error f →
      run (fuel + 2) (afterTag tag (.char '\n' :: rest)) = .error f) ∧
    ∀ body, PendingHeredoc.resolve (nestedRun (fuel + 1)) ⟨0, tag, tag.openedSpan⟩ c = .ok body →
      (c.jump body.resume).rest = [] →
      ∃ s, run (fuel + 2) (afterTag tag (.char '\n' :: rest)) =
        .ok ([.mk .heredoc (.char '@' :: .char '(' :: (tag.text ++ [.char ')'])) tag.openedSpan
          (.heredoc tag (some body)), Token.endAt body.resume], s) ∧ s.comments = [] := by
  have hskip : (afterTag tag (.char '\n' :: rest)).cursor.skip 1 = c := by
    show Cursor.mk ((Position.start.after
        (.char '@' :: .char '(' :: (tag.text ++ [.char ')']))).after [.char '\n'])
      rest = c
    rw [hc, ← Position.after_append]
    simp
  have hstep : (afterTag tag (.char '\n' :: rest)).step (nestedRun (fuel + 1)) =
      some <$> (resolveAll (nestedRun (fuel + 1)) [⟨0, tag, tag.openedSpan⟩] c >>= fun p =>
        .ok { afterTag tag (.char '\n' :: rest) with
          cursor := p.2, bodies := p.1, queue := ⟨1, []⟩ }) := by
    rw [step_line rfl, newline_eq, hskip]
    rfl
  constructor
  · intro f hf
    have hfails : (afterTag tag (.char '\n' :: rest)).step (nestedRun (fuel + 1)) = .error f := by
      rw [hstep, resolveAll, hf]
      rfl
    show (afterTag tag (.char '\n' :: rest)).step (nestedRun (fuel + 1)) >>= _ = _
    rw [hfails]
    rfl
  · intro body hbody hend
    have hnext : (afterTag tag (.char '\n' :: rest)).step (nestedRun (fuel + 1)) =
        .ok (some { afterTag tag (.char '\n' :: rest) with
          cursor := c.jump body.resume, bodies := [body], queue := ⟨1, []⟩ }) := by
      rw [hstep, resolveAll, hbody]
      rfl
    rw [run_of_step hnext, run_of_stop]
    · exact ⟨_, rfl, rfl⟩
    · unfold step
      rw [hend]

end ScanState

/-- Where a heredoc is opened at the start of a source and its terminator is alone on the next
line, that line closes it just if the terminator can be taken for nothing else.  Otherwise the
heredoc has no end. -/
theorem Token.scan_closedSource {text : Text} {tag : HeredocTag}
    (h : HeredocTag.parse text = .ok tag) (hparen : .char ')' ∉ text) (hline : .char '\n' ∉ text) :
    (tag.Closable → ∃ body p, Token.scan tag.closedSource =
      .ok ([.mk .heredoc (.char '@' :: .char '(' :: (text ++ [.char ')']))
          tag.openedSpan (.heredoc tag (some body)),
        Token.endAt p], []) ∧ body.fragments = []) ∧
    (¬ tag.Closable → Token.scan tag.closedSource =
      reject (.missingTerminator tag.terminator) tag.openedSpan) := by
  obtain rfl := HeredocTag.text_eq h
  have hterminator : .char '\n' ∉ tag.terminator :=
    fun hmem => hline (HeredocTag.parse_subset h hmem)
  set c : Cursor :=
      ⟨Position.start.after (.char '@' :: .char '(' :: (tag.text ++ [.char ')', .char '\n'])),
    tag.terminator ++ [.char '\n']⟩ with hc
  obtain ⟨fuel, hfuel⟩ : ∃ fuel, tag.closedSource.length + 1 = fuel + 3 := by
    refine ⟨tag.text.length + tag.terminator.length + 3, ?_⟩
    simp only [HeredocTag.closedSource, List.length_cons, List.length_append, List.length_nil]
    omega
  have hscan : Token.scan tag.closedSource =
      (ScanState.run (fuel + 2)
          (ScanState.afterTag tag (.char '\n' :: (tag.terminator ++ [.char '\n']))) >>=
        fun p => .ok (p.1, p.2.comments.reverse)) := by
    unfold Token.scan
    rw [hfuel]
    unfold HeredocTag.closedSource
    rw [ScanState.run_of_step (ScanState.step_opened h hparen hline)]
    rfl
  obtain ⟨hfails, hends⟩ := ScanState.run_opened fuel hc
  obtain ⟨hclosed, hopen⟩ := PendingHeredoc.resolve_alone (ScanState.nestedRun (fuel + 1))
    ⟨0, tag, tag.openedSpan⟩ (c := c) h hterminator rfl
  set body := PendingHeredoc.closedBody ⟨0, tag, tag.openedSpan⟩ c [] tag.terminator [.char '\n']
    ⟨[], [], [], [], []⟩ [] with hbody
  have hend : (c.jump body.resume).rest = [] := by
    have hresume : body.resume.offset = c.offset + 0 + tag.terminator.length + 1 := rfl
    rw [Cursor.jump, List.drop_eq_nil_iff, hresume, hc, List.length_append, List.length_singleton]
    omega
  refine ⟨fun hclosable => ?_, fun hclosable => ?_⟩
  · obtain ⟨s, hrun, hcomments⟩ := hends body (hclosed hclosable) hend
    refine ⟨body, body.resume, ?_, rfl⟩
    rw [hscan, hrun]
    show Except.ok (_, s.comments.reverse) = _
    rw [hcomments]
    rfl
  · rw [hscan, hfails _ (hopen hclosable)]
    rfl

/-- A terminator with a space in it. -/
theorem Token.scan_closedSource_spaced :
    ∃ tag, HeredocTag.parse (Text.ofString "'A B'/t") = .ok tag ∧
    .char ')' ∉ (Text.ofString "'A B'/t") ∧ .char '\n' ∉ (Text.ofString "'A B'/t") ∧ tag.Closable ∧
      tag.closedSource = Text.ofString "@('A B'/t)\nA B\n" ∧
        ∃ body p, Token.scan (Text.ofString "@('A B'/t)\nA B\n") =
            .ok ([.mk .heredoc (Text.ofString "@('A B'/t)")
          ⟨0, 10, 1, 1⟩ (.heredoc tag (some body)), Token.endAt p], []) ∧ body.fragments = [] := by
  have hparse : HeredocTag.parse (Text.ofString "'A B'/t") =
      .ok ⟨Text.ofString "'A B'/t", Text.ofString "A B", .single, none, some [.char 't']⟩ := by cbv
  have hparen : .char ')' ∉ (Text.ofString "'A B'/t") := by decide
  have hline : .char '\n' ∉ (Text.ofString "'A B'/t") := by decide
  have hclosable : HeredocTag.Closable
      ⟨Text.ofString "'A B'/t", Text.ofString "A B", .single, none, some [.char 't']⟩ := by
    refine ⟨by decide, ?_⟩
    rintro c ⟨⟩
    decide
  exact ⟨_, hparse, hparen, hline, hclosable, rfl,
    (Token.scan_closedSource hparse hparen hline).1 hclosable⟩

/-- A terminator that begins with a sign, and one that holds a carriage return: both tags are
accepted, and the line that holds the terminator closes neither heredoc. -/
theorem Token.scan_unclosable :
    (∃ tag, HeredocTag.parse (Text.ofString "\"-x\"") = .ok tag ∧
        tag.terminator = Text.ofString "-x" ∧
      Token.scan (Text.ofString "@(\"-x\")\n-x\n") =
        reject (.missingTerminator (Text.ofString "-x")) ⟨0, 7, 1, 1⟩) ∧
    ∃ tag, HeredocTag.parse (Text.ofString "'a\rb'") = .ok tag ∧
        tag.terminator = Text.ofString "a\rb" ∧
      Token.scan (Text.ofString "@('a\rb')\na\rb\n") =
        reject (.missingTerminator (Text.ofString "a\rb")) ⟨0, 8, 1, 1⟩ := by
  refine ⟨⟨⟨Text.ofString "\"-x\"", Text.ofString "-x", .double, none, none⟩, ?_, rfl, ?_⟩,
    ⟨⟨Text.ofString "'a\rb'", Text.ofString "a\rb", .single, none, none⟩, ?_, rfl, ?_⟩⟩ <;> cbv

end ManifestTree
