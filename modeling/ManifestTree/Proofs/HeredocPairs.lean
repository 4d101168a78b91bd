import ManifestTree.Proofs.ParseFailures
import ManifestTree.Proofs.ScanMoves

/-!
# Heredocs and their bodies

The scanner queues the heredocs that a line opens and reads their bodies at its end, oldest first.
`ScanState.Paired` is what a scan keeps: the heredocs opened so far are those that have their bodies
and, after them, those that wait; the tickets count both; and each body stands after the one before,
or right after it if its tag came before that body.  So at the end the first body belongs to the
first heredoc, the second to the second, and none is left over.
-/

namespace ManifestTree

variable {source : Text}

/-! ## Bodies that are read together -/

/-- The body was read for the heredoc from the source, and has its number. -/
structure PendingHeredoc.Answers (source : Text) (p : PendingHeredoc) (b : HeredocBody) :
    Prop where
  tagged : p.Tagged
  ticket : b.ticket = p.ticket
  origin : ∃ nested c, (c.rest ≠ [] → Cursor.At source c) ∧ p.resolve nested c = .ok b

/-- The token opened the heredoc that waits. -/
def Token.Awaits (t : Token) (p : PendingHeredoc) : Prop := t.detail = .heredoc p.tag none

/-- The token opened the heredoc for which the body was read. -/
def Token.Answered (source : Text) (t : Token) (b : HeredocBody) : Prop :=
  ∃ p, t.Awaits p ∧ p.Answers source b

/-- A body has the number of its heredoc, and its marker ends with the terminator. -/
theorem PendingHeredoc.resolve_marked {nested : NestedScan} {p : PendingHeredoc} {c : Cursor}
    {b : HeredocBody} (h : p.resolve nested c = .ok b) :
    b.ticket = p.ticket ∧ p.tag.terminator <:+ b.marker.text := by
  obtain ⟨body, line, closing, fs, hsplit, -, rfl⟩ := resolve_eq_ok.mp h
  obtain ⟨hlines, hwhole, hclosing⟩ := splitAtClosing?_lines hsplit
  obtain ⟨cs, hcs⟩ := linesTo_reads hlines
  obtain ⟨tail, -, -, hrest⟩ := afterClosing_passes hcs hwhole
  rw [List.append_assoc] at hrest
  obtain ⟨-, mid, -, d, e, -, -, -, -, -, hsuffix, -, -, hmarker⟩ := marker_reads hrest hclosing
  rw [splitAtClosing?_text hsplit] at hsuffix
  refine ⟨rfl, ?_⟩
  show p.tag.terminator <:+ (marker line closing).text
  rw [hmarker]
  exact hsuffix

theorem resolveAll_answers {nested : NestedScan} {pending : List PendingHeredoc} {c d : Cursor}
    {bodies : List HeredocBody} (htagged : ∀ p ∈ pending, p.Tagged)
    (hat : pending ≠ [] → c.rest ≠ [] → Cursor.At source c)
    (h : resolveAll nested pending c = .ok (bodies, d)) :
    List.Forall₂ (PendingHeredoc.Answers source) pending bodies := by
  induction pending generalizing c bodies with
  | nil =>
    cases h
    exact .nil
  | cons p pending ih =>
    obtain ⟨b, bs, hb, hbs, rfl⟩ := resolveAll_cons_eq_ok.mp h
    have hc := hat (List.cons_ne_nil p pending)
    obtain ⟨cs, hpasses⟩ := PendingHeredoc.resolve_passes hb
    have hanswers : p.Answers source b :=
      ⟨htagged p List.mem_cons_self, (PendingHeredoc.resolve_marked hb).1, nested, c, hc, hb⟩
    exact .cons hanswers (ih (fun q hq => htagged q (List.mem_cons_of_mem p hq))
      (fun _ => hpasses.at hc) hbs)

theorem PendingHeredoc.answers_tickets {pending : List PendingHeredoc} {bodies : List HeredocBody}
    (h : List.Forall₂ (PendingHeredoc.Answers source) pending bodies) :
    bodies.map HeredocBody.ticket = pending.map PendingHeredoc.ticket := by
  induction h with
  | nil => rfl
  | cons hb _ ih => rw [List.map_cons, List.map_cons, hb.ticket, ih]

theorem Token.awaits_answered {ts : List Token} {pending : List PendingHeredoc}
    {bodies : List HeredocBody} (h : List.Forall₂ Token.Awaits ts pending)
    (hb : List.Forall₂ (PendingHeredoc.Answers source) pending bodies) :
    List.Forall₂ (Token.Answered source) ts bodies := by
  induction hb generalizing ts with
  | nil =>
    cases h
    exact .nil
  | cons hb _ ih =>
    cases h with
    | cons ht h => exact .cons ⟨_, ht, hb⟩ (ih h)

/-- Bodies that are read together begin at the cursor, each of them where scanning goes on after
the one before. -/
theorem Laid.bodies_adjoin {c d : Cursor} {bodies : List HeredocBody}
    (h : Laid source c (bodies.map .body) d) :
    (∀ b ∈ bodies.head?, b.span.start = c.offset) ∧
      (bodies.IsChain fun a b => b.span.start = a.resume.offset) ∧
      ∀ b ∈ bodies, (c.offset : Int) ≤ b.span.start ∧ b.span.start ≤ b.resume.offset ∧
        b.resume.offset ≤ d.offset := by
  induction bodies generalizing c with
  | nil => exact ⟨nofun, .nil, List.forall_mem_nil _⟩
  | cons b bodies ih =>
    cases h with
    | cons hx hxs =>
    cases hx with
    | body hres =>
    obtain ⟨hfirst, hchain, hwithin⟩ := ih hxs
    have hstart := hres.starts
    have hjump : (c.jump b.resume).offset = b.resume.offset := rfl
    have hle : c.offset ≤ b.resume.offset := (Laid.single (.body hres)).offset_le
    have hend : b.resume.offset ≤ d.offset := hxs.offset_le
    refine ⟨?_, hchain.cons hfirst, List.forall_mem_cons.mpr ⟨?_, fun a ha => ?_⟩⟩
    · intro a ha
      obtain rfl : b = a := Option.some.inj ha
      exact hstart
    · omega
    · have := hwithin a ha
      rw [hjump] at this
      omega

/-! ## What a scan keeps -/

/-- The second body comes after the first one, and right after it if its token starts before the
first body does. -/
def HeredocBody.Follows (x y : Token × HeredocBody) : Prop :=
  (x.2.resume.offset : Int) ≤ y.2.span.start ∧
    (y.1.span.start < x.2.span.start → y.2.span.start = x.2.resume.offset)

namespace ScanState

/-- The first heredocs have their bodies, and the others wait. -/
structure Paired (source : Text) (answered waiting : List Token) (s : ScanState) : Prop where
  opened : Token.heredocs s.tokens.reverse = answered ++ waiting
  answers : List.Forall₂ (Token.Answered source) answered s.bodies
  awaits : List.Forall₂ Token.Awaits waiting s.queue.waiting
  tickets : s.bodies.map HeredocBody.ticket ++ s.queue.waiting.map PendingHeredoc.ticket =
    List.range s.queue.next
  follows : (answered.zip s.bodies).IsChain HeredocBody.Follows
  behind : ∀ b ∈ s.bodies, b.span.start ≤ b.resume.offset ∧ b.resume.offset ≤ s.cursor.offset ∧
    ∀ t ∈ waiting, (b.resume.offset : Int) ≤ t.span.start

variable {nested : NestedScan} {s s' : ScanState} {answered waiting : List Token}

theorem Paired.none_waits (h : Paired source answered [] s) : s.queue.waiting = [] :=
  List.forall₂_nil_left_iff.mp h.awaits

/-- A scan begins with no heredoc. -/
theorem start_paired (opener : Option Span) (c : Cursor) :
    Paired source [] [] (start opener c) where
  opened := rfl
  answers := .nil
  awaits := .nil
  tickets := rfl
  follows := .nil
  behind := List.forall_mem_nil _

/-- What leaves the heredocs alone and does not go back. -/
theorem Paired.passes (h : Paired source answered waiting s) (hqueue : s'.queue = s.queue)
    (hbodies : s'.bodies = s.bodies)
    (htokens : Token.heredocs s'.tokens = Token.heredocs s.tokens)
    (hle : s.cursor.offset ≤ s'.cursor.offset) : Paired source answered waiting s' where
  opened := by
    have hreverse (ts : List Token) : Token.heredocs ts.reverse = (Token.heredocs ts).reverse :=
      List.filter_reverse
    rw [hreverse, htokens, ← hreverse, h.opened]
  answers := hbodies ▸ h.answers
  awaits := hqueue ▸ h.awaits
  tickets := by rw [hbodies, hqueue, h.tickets]
  follows := hbodies ▸ h.follows
  behind := by
    rw [hbodies]
    intro b hb
    obtain ⟨hstart, hresume, hlater⟩ := h.behind b hb
    exact ⟨hstart, by omega, hlater⟩

/-- A heredoc that is opened waits after the others. -/
theorem Paired.opens (h : Paired source answered waiting s) {inside : Text} {n : Nat}
    {span : Span} {pending : PendingHeredoc} {queue : HeredocQueue}
    (henqueue : s.queue.enqueue inside span = .ok (pending, queue)) :
    ∃ t, Paired source answered (waiting ++ [t])
      ({ s with queue }.emit .heredoc (s.cursor.skip n) (.heredoc pending.tag none)) := by
  obtain ⟨tag, rfl, rfl⟩ := HeredocQueue.enqueue_ok henqueue
  refine ⟨.mk .heredoc (s.cursor.upTo (s.cursor.skip n)) (s.cursor.spanTo (s.cursor.skip n))
    (.heredoc tag none), ?_, h.answers, ?_, ?_, h.follows, ?_⟩
  · show Token.heredocs (_ :: s.tokens).reverse = _
    rw [List.reverse_cons, Token.heredocs, List.filter_append, ← Token.heredocs, h.opened,
      List.append_assoc]
    rfl
  · exact List.rel_append h.awaits (.cons rfl .nil)
  · show s.bodies.map HeredocBody.ticket ++
      (s.queue.waiting ++ [PendingHeredoc.mk s.queue.next tag _]).map PendingHeredoc.ticket =
        List.range (s.queue.next + 1)
    rw [List.map_append, ← List.append_assoc, h.tickets, List.range_succ]
    rfl
  · intro b hb
    obtain ⟨hstart, hresume, hlater⟩ := h.behind b hb
    have hnext : s.cursor.offset ≤ (s.cursor.skip n).offset := by
      rw [(Cursor.reads_skip s.cursor n).offset]
      omega
    refine ⟨hstart, Nat.le_trans hresume hnext, ?_⟩
    refine List.forall_mem_append.mpr ⟨hlater, List.forall_mem_singleton.mpr ?_⟩
    exact Int.ofNat_le.mpr hresume

/-- Reading the bodies of all heredocs that wait. -/
theorem Paired.resolves (hn : nested.Sound) (hs : s.Ready source)
    (h : Paired source answered waiting s) (hresolve : s.resolveHeredocs nested = .ok s') :
    Paired source (answered ++ waiting) [] s' := by
  unfold resolveHeredocs at hresolve
  obtain ⟨⟨bodies, cursor⟩, hbodies, hresolve⟩ := bind_eq_ok.mp hresolve
  cases hresolve
  have hat (hw : s.queue.waiting ≠ []) : s.cursor.rest ≠ [] → Cursor.At source s.cursor := by
    refine hs.placed ?_
    cases ho : s.opener with
    | none => rfl
    | some o => exact absurd (hs.quiet (by simp [ho])) hw
  have hlaid := (resolveAll_lays hn hs.tagged hat hbodies).1
  obtain ⟨hfirst, hchain, hwithin⟩ := hlaid.bodies_adjoin
  have hanswers := resolveAll_answers hs.tagged hat hbodies
  have hlength : waiting.length = bodies.length :=
    (Token.awaits_answered h.awaits hanswers).length_eq
  refine ⟨?_, ?_, .nil, ?_, ?_, ?_⟩
  · rw [List.append_nil]
    exact h.opened
  · exact List.rel_append h.answers (Token.awaits_answered h.awaits hanswers)
  · show (s.bodies ++ bodies).map HeredocBody.ticket ++ [] = List.range s.queue.next
    rw [List.append_nil, List.map_append, PendingHeredoc.answers_tickets hanswers, h.tickets]
  · show ((answered ++ waiting).zip (s.bodies ++ bodies)).IsChain HeredocBody.Follows
    rw [List.zip_append h.answers.length_eq]
    refine h.follows.append ?_ fun x hx y hy => ?_
    · refine List.isChain_of_isChain_map Prod.snd (fun x y hxy => ?_) (S :=
        fun a b => b.span.start = a.resume.offset) ?_
      · exact ⟨Int.le_of_eq hxy.symm, fun _ => hxy⟩
      · rwa [List.map_snd_zip (Nat.le_of_eq hlength.symm)]
    · -- The heredocs that wait come after the bodies that were read before.
      have hx : x.2 ∈ s.bodies := (List.of_mem_zip (List.mem_of_getLast? hx)).2
      have hy := List.of_mem_zip (List.mem_of_mem_head? hy)
      obtain ⟨hstart, hresume, hlater⟩ := h.behind x.2 hx
      have hbegins := (hwithin y.2 hy.2).1
      have htoken := hlater y.1 hy.1
      exact ⟨by omega, fun hlt => absurd hlt (by omega)⟩
  · have hle := hlaid.offset_le
    refine List.forall_mem_append.mpr ⟨fun b hb => ?_, fun b hb => ?_⟩
    · obtain ⟨hstart, hresume, -⟩ := h.behind b hb
      exact ⟨hstart, Nat.le_trans hresume hle, List.forall_mem_nil _⟩
    · obtain ⟨-, hstart, hend⟩ := hwithin b hb
      exact ⟨hstart, hend, List.forall_mem_nil _⟩

theorem step_paired (hn : nested.Sound) (hs : s.Ready source)
    (h : ∃ answered waiting, Paired source answered waiting s)
    (hstep : s.step nested = .ok (some s')) :
    ∃ answered waiting, Paired source answered waiting s' := by
  obtain ⟨answered, waiting, h⟩ := h
  have hle : s.cursor.offset ≤ s'.cursor.offset := by
    obtain ⟨xs, hlays⟩ := step_lays hn hs hstep
    exact hlays.laid.offset_le
  cases step_moves hstep with
  | passes => exact ⟨_, _, h.passes rfl rfl rfl hle⟩
  | reads kind after hk =>
    refine ⟨_, _, h.passes rfl rfl (Token.heredocs_cons_other ?_ _) hle⟩
    exact hk
  | quotes =>
    refine ⟨_, _, h.passes rfl rfl (Token.heredocs_cons_other ?_ _) hle⟩
    simp [Token.kind]
  | opens _ _ henqueue =>
    obtain ⟨t, h⟩ := h.opens henqueue
    exact ⟨_, _, h⟩
  | resolves hc hresolve =>
    have hblank : s.Lays source [.blank] s.blank := blank_lays hc rfl
    have h : Paired source answered waiting s.blank := h.passes rfl rfl rfl hblank.laid.offset_le
    exact ⟨_, _, h.resolves hn (hblank.ready hs) hresolve⟩

/-- When the run of a source ends no heredoc waits, and the tokens get the bodies. -/
theorem run_paired {fuel : Nat} {ts : List Token} (hs : s.Ready source) (ho : s.opener = none)
    (h : ∃ answered waiting, Paired source answered waiting s) (hfresh : ∀ t ∈ s.tokens, t.Fresh)
    (hrun : run fuel s = .ok (ts, s')) :
    (∃ answered, Paired source answered [] s') ∧ (∀ t ∈ s'.tokens, t.Fresh) ∧
      ts = attachBodies s'.tokens.reverse s'.bodies ++ [Token.endAt s'.cursor.pos] := by
  have hkeep {nested : NestedScan} {s s' : ScanState} (hn : nested.Sound) (hs : s.Ready source)
      (h : s.opener = none ∧ (∃ answered waiting, Paired source answered waiting s) ∧
        ∀ t ∈ s.tokens, t.Fresh) (hstep : s.step nested = .ok (some s')) :
      s'.opener = none ∧ (∃ answered waiting, Paired source answered waiting s') ∧
        ∀ t ∈ s'.tokens, t.Fresh := by
    obtain ⟨ho, hpaired, hfresh⟩ := h
    obtain ⟨xs, hlays⟩ := step_lays hn hs hstep
    refine ⟨hlays.opener.trans ho, step_paired hn hs hpaired hstep, ?_⟩
    rw [hlays.tokens]
    refine List.forall_mem_append.mpr ⟨fun t ht => ?_, hfresh⟩
    exact hlays.laid.fresh t (List.mem_reverse.mp ht)
  obtain ⟨nested, s₁, hn, hs₁, ⟨ho, ⟨answered, waiting, h⟩, hfresh⟩, hfinish⟩ :=
    run_invariant hkeep hs ⟨ho, h, hfresh⟩ hrun
  unfold finish at hfinish
  rw [ho] at hfinish
  obtain ⟨s₂, hresolve, hfinish⟩ := bind_eq_ok.mp hfinish
  cases hfinish
  have htokens : s'.tokens = s₁.tokens := by
    unfold resolveHeredocs at hresolve
    obtain ⟨⟨bodies, cursor⟩, -, hresolve⟩ := bind_eq_ok.mp hresolve
    cases hresolve
    rfl
  exact ⟨⟨_, h.resolves hn hs₁ hresolve⟩, htokens ▸ hfresh, rfl⟩

end ScanState

/-! ## The tokens with their bodies -/

def Token.withBody : Token → HeredocBody → Token
  | .mk kind text span (.heredoc tag _), b => .mk kind text span (.heredoc tag (some b))
  | t, _ => t

@[simp] theorem Token.withBody_span (t : Token) (b : HeredocBody) :
    (t.withBody b).span = t.span := by
  unfold withBody
  split <;> rfl

theorem Token.Answered.withBody_detail {t : Token} {b : HeredocBody} (h : t.Answered source b) :
    ∃ p : PendingHeredoc, (t.withBody b).detail = .heredoc p.tag (some b) ∧ p.Answers source b := by
  obtain ⟨kind, text, span, detail⟩ := t
  obtain ⟨p, hdetail, hp⟩ := h
  obtain rfl : detail = .heredoc p.tag none := hdetail
  exact ⟨p, rfl, hp⟩

theorem Token.Answered.withBody_body? {t : Token} {b : HeredocBody} (h : t.Answered source b) :
    (t.withBody b).body? = some b := by
  obtain ⟨p, hdetail, -⟩ := h.withBody_detail
  unfold body?
  rw [hdetail]

/-- The first heredoc gets the first body, the second the second, and so on. -/
theorem ScanState.heredocs_attachBodies {ts : List Token} {bodies : List HeredocBody}
    (hfresh : ∀ t ∈ ts, t.Fresh) (hlen : (Token.heredocs ts).length = bodies.length) :
    Token.heredocs (attachBodies ts bodies) =
      ((Token.heredocs ts).zip bodies).map fun p => p.1.withBody p.2 := by
  induction ts generalizing bodies with
  | nil => rfl
  | cons t ts ih =>
    obtain ⟨kind, text, span, detail⟩ := t
    have hts := fun u hu => hfresh u (List.mem_cons_of_mem _ hu)
    by_cases hk : kind = .heredoc
    · subst hk
      obtain ⟨tag, hd⟩ := (hfresh _ List.mem_cons_self).waiting rfl
      obtain rfl : detail = .heredoc tag none := hd
      rw [Token.heredocs_cons rfl] at hlen ⊢
      cases bodies with
      | nil => simp at hlen
      | cons b bodies =>
        rw [attachBodies, Token.heredocs_cons rfl, ih hts (Nat.succ.inj hlen)]
        rfl
    · have hother : (Token.mk kind text span detail).kind ≠ .heredoc := hk
      rw [Token.heredocs_cons_other hother] at hlen ⊢
      rw [attachBodies]
      · rw [Token.heredocs_cons_other hother, ih hts hlen]
      · simp [hk]

/-- The body of the second token comes after that of the first, and right after it if the second
token starts before the first body does. -/
def Token.BodyFollows (t u : Token) : Prop :=
  ∀ b ∈ t.body?, ∀ c ∈ u.body?, (b.resume.offset : Int) ≤ c.span.start ∧
    (u.span.start < b.span.start → c.span.start = b.resume.offset)

/-- What is true of the heredocs among the tokens and comments of a source. -/
structure Token.HeredocsPaired (tokens comments : List Token) : Prop where
  /-- Every heredoc has the body of its number, which begins after it and whose marker ends with its
  terminator. -/
  answered : ∀ (i : Nat) (t : Token), (Token.heredocs tokens)[i]? = some t →
    ∃ tag b, t.detail = .heredoc tag (some b) ∧ b.ticket = i ∧
      tag.terminator <:+ b.marker.text ∧ t.span.stop ≤ b.span.start
  /-- The bodies come in the order of the heredocs. -/
  follows : (Token.heredocs tokens).IsChain Token.BodyFollows
  /-- Interpolations hold no heredocs. -/
  outermost : ∀ t ∈ (Token.deepAll tokens).flatMap Fragment.tokens, t.kind ≠ .heredoc
  /-- No token or comment starts in the region of a body. -/
  apart : ∀ b ∈ tokens.filterMap Token.body?, ∀ t ∈ tokens ++ comments,
    t.span.start < b.span.start ∨ (b.resume.offset : Int) ≤ t.span.start

/-- The tokens and comments of a scan stand outside of the regions of its heredocs. -/
theorem LaidOut.apart {xs : List Stretch} {tokens comments : List Token}
    (hl : LaidOut source xs tokens comments) :
    ∀ b ∈ xs.filterMap Stretch.body?, ∀ t ∈ tokens ++ comments,
      t.span.start < b.span.start ∨ (b.resume.offset : Int) ≤ t.span.start := by
  intro b hb
  obtain ⟨d, hlaid, -, htokens⟩ := hl.laid
  have hat : (Cursor.ofSource source).rest ≠ [] → Cursor.At source (Cursor.ofSource source) :=
    fun _ => Cursor.At.ofSource source
  have seen {t : Token} (ht : t ∈ xs.filterMap Stretch.seen?) :
      t.span.start < b.span.start ∨ (b.resume.offset : Int) ≤ t.span.start := by
    have hnonempty := ((hlaid.seen hat).1 t ht).nonempty
    have happart := hlaid.seen_body_apart hat t ht b hb
    omega
  rw [htokens]
  refine List.forall_mem_append.mpr ⟨List.forall_mem_append.mpr ⟨fun t ht => ?_, ?_⟩, ?_⟩
  · obtain ⟨u, hu, ha⟩ := Token.attached_of_mem hl.attached t (by
      rwa [htokens, List.dropLast_concat])
    rw [ha.same_place.2.2]
    exact seen ((Stretch.token?_sublist xs).subset hu)
  · obtain ⟨e, -, -, hresume⟩ := hlaid.resolved b hb
    exact List.forall_mem_singleton.mpr (.inr (Int.ofNat_le.mpr hresume))
  · intro t ht
    rw [hl.comments] at ht
    exact seen ((seen?_perm xs).mem_iff.mpr (List.mem_append_right _ ht))

/-- The heredocs among the tokens of a source are those that the scan has paired with bodies. -/
theorem Token.scan_paired {tokens comments : List Token}
    (h : Token.scan source = .ok (tokens, comments)) :
    ∃ answered s, ScanState.Paired source answered [] s ∧
      Token.heredocs tokens = (answered.zip s.bodies).map fun p => p.1.withBody p.2 := by
  unfold Token.scan at h
  obtain ⟨⟨ts, s⟩, hrun, h⟩ := bind_eq_ok.mp h
  cases h
  obtain ⟨⟨answered, hpaired⟩, hfresh, htokens⟩ :=
    ScanState.run_paired (ScanState.start_ready_source source) rfl
      ⟨[], [], ScanState.start_paired none (Cursor.ofSource source)⟩ (List.forall_mem_nil _) hrun
  have hopened := hpaired.opened
  rw [List.append_nil] at hopened
  have hlen : (Token.heredocs s.tokens.reverse).length = s.bodies.length := by
    rw [hopened]
    exact hpaired.answers.length_eq
  refine ⟨answered, s, hpaired, ?_⟩
  rw [htokens, Token.heredocs, List.filter_append, ← Token.heredocs,
    ScanState.heredocs_attachBodies (fun t ht => hfresh t (List.mem_reverse.mp ht)) hlen, hopened]
  exact List.append_nil _

/-- Every heredoc of a source gets its own body, and the bodies come in the order of the
heredocs. -/
theorem Token.scan_heredocsPaired {tokens comments : List Token}
    (h : Token.scan source = .ok (tokens, comments)) : Token.HeredocsPaired tokens comments := by
  have hregular : ∀ t ∈ tokens, t.Regular source := by
    have hscan := Token.scan_scans source
    rwa [h] at hscan
  obtain ⟨xs, hl⟩ := Token.scan_laidOut h
  have hrow := (Token.scan_row h).1
  obtain ⟨answered, s, hpaired, hheredocs⟩ := Token.scan_paired h
  have hanswers {t : Token} {b : HeredocBody} (hp : (t, b) ∈ answered.zip s.bodies) :
      t.Answered source b := (List.forall₂_iff_zip.mp hpaired.answers).2 hp
  refine ⟨fun i t ht => ?_, ?_, ?_, ?_⟩
  · have hmem : t ∈ Token.heredocs tokens := List.mem_of_getElem? ht
    rw [hheredocs, List.getElem?_map] at ht
    obtain ⟨⟨u, b⟩, hp, rfl⟩ := Option.map_eq_some_iff.mp ht
    have hanswered := hanswers (List.mem_of_getElem? hp)
    obtain ⟨p, hdetail, hb⟩ := hanswered.withBody_detail
    obtain ⟨nested, c, -, hread⟩ := hb.origin
    refine ⟨p.tag, b, hdetail, ?_, (PendingHeredoc.resolve_marked hread).2, ?_⟩
    · -- The tickets count the bodies.
      have hticket : (s.bodies.map HeredocBody.ticket)[i]? = some b.ticket := by
        rw [List.getElem?_map, (List.getElem?_zip_eq_some.mp hp).2]
        rfl
      have htickets := hpaired.tickets
      rw [hpaired.none_waits, List.map_nil, List.append_nil] at htickets
      rw [htickets] at hticket
      obtain ⟨hlt, hget⟩ := List.getElem?_eq_some_iff.mp hticket
      rw [← hget, List.getElem_range]
    · obtain ⟨hmem, hk⟩ := List.mem_filter.mp hmem
      exact ((hrow.located _ (hl.mem_dropLast hmem (by
        rw [of_decide_eq_true hk]
        nofun))).body b hanswered.withBody_body?).2
  · rw [hheredocs, List.isChain_map]
    refine hpaired.follows.imp_of_mem_imp fun p q hp hq hfollows b hb c hc => ?_
    rw [(hanswers hp).withBody_body?] at hb
    rw [(hanswers hq).withBody_body?] at hc
    cases hb
    cases hc
    rw [Token.withBody_span]
    exact hfollows
  · intro t ht
    obtain ⟨f, hf, ht⟩ := List.mem_flatMap.mp ht
    obtain ⟨u, hu, hf⟩ := Token.mem_deepAll.mp hf
    exact (((hregular u hu).deep f hf).tokens t ht).1
  · rw [hl.bodies]
    exact hl.apart

/-- Two heredocs that one line opens, around a block comment with a line end. -/
theorem Token.scan_heredocsPaired_two : ∃ tokens comments,
    Token.scan (Text.ofString "$x = [@(A), /*\nfoo\nA\n*/ @(B)]\nbar\nA\nB\n") =
        .ok (tokens, comments) ∧
      (Token.heredocs tokens).length = 2 ∧ Token.HeredocsPaired tokens comments := by
  have hrun :
      (Token.scan (Text.ofString "$x = [@(A), /*\nfoo\nA\n*/ @(B)]\nbar\nA\nB\n")).toOption.map
      (fun p => (Token.heredocs p.1).length) = some 2 := by cbv
  obtain ⟨⟨tokens, comments⟩, hscan, hheredocs⟩ := exists_ok_of_map hrun
  exact ⟨tokens, comments, hscan, hheredocs, Token.scan_heredocsPaired hscan⟩

end ManifestTree
