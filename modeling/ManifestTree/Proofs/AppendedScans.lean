import ManifestTree.Proofs.HeredocPairs
import ManifestTree.Proofs.JoinedScans
import ManifestTree.Proofs.PlainRuns

/-!
# The scan of a source and another after it

Two sources with a line end between them are scanned like each of them alone, with the places of the
second counted on.  Nothing of the first scan is left when the second begins: no heredoc waits, and
a slash may open a regular expression as at the start of a source, unless the first source ends with
a value.
-/

namespace ManifestTree

open Text

/-! ## A source within a text -/

/-- The place in a text of the place after a closing line of a source that begins at `p`.  A closing
line that ends the source takes the line end after it. -/
def Fork.resumed (p : Position) (source other : Text) (q : Position) : Position :=
  if q.offset = source.length ∧ source.getLast? ≠ some (.char '\n') then
    { p.translate q with offset := p.offset + q.offset + (other.take 1).length }
  else p.translate q

/-- A source, and a text in which it stands after `front` and before `other`. -/
def Fork.inserted (front source other : Text) (tickets : Nat) : Fork where
  rest := []
  other := other
  whole := front ++ source ++ other
  places q q' := q.Counted ∧ q' = (Position.start.after front).translate q
  left := ⟨Span.translate (Position.start.after front), (· + tickets),
    Fork.resumed (Position.start.after front) source other⟩
  right := .plain

section

variable {front source other : Text} {tickets : Nat}

theorem Fork.inserted_lawful (hother : other = [] ∨ other.head? = some (.char '\n')) :
    (Fork.inserted front source other tickets).Lawful where
  step := by
    rintro q q' ⟨hcounted, rfl⟩ c
    exact ⟨hcounted.step c, (hcounted.translate_step c).symm⟩
  span := by
    rintro q q' r r' ⟨hcounted, rfl⟩ ⟨-, rfl⟩
    exact hcounted.translate_between
  cuts := .of_separated (separated_of_line hother)
  regex _ := Lexeme.regexLength?_missed hother
  lines _ := hother

/-- The common part is what is left of the source. -/
theorem Cursor.Beside.inserted {c c' : Cursor} {w : Text}
    (h : c.Beside (.inserted front source other tickets) w c') :
    c.offset + w.length = source.length ∧ (w ≠ [] → source.getLast? = w.getLast?) := by
  obtain ⟨before, hs, hp⟩ := h.placed
  obtain ⟨-, hpos⟩ := h.pos
  rw [h.other, ← List.append_assoc] at hs
  have hs : front ++ source = before ++ w := List.append_cancel_right hs
  have hbefore : before.length = front.length + c.offset := by
    have hoffset : c'.pos.offset = (Position.start.after front).offset + c.pos.offset := by
      rw [hpos]
      rfl
    rwa [hp, Position.start_after, Position.start_after] at hoffset
  have hlength := congrArg List.length hs
  rw [List.length_append, List.length_append, hbefore] at hlength
  refine ⟨by omega, fun hw => ?_⟩
  have hsource : source ≠ [] := by
    rintro rfl
    have := List.length_pos_iff.mpr hw
    rw [List.length_nil] at hlength
    omega
  rw [← List.getLast?_append_of_ne_nil front hsource, hs, List.getLast?_append_of_ne_nil _ hw]

theorem Fork.inserted_extends (hother : other = [] ∨ other.head? = some (.char '\n')) :
    (Fork.inserted front source other tickets).Extends front.length tickets where
  toLawful := Fork.inserted_lawful hother
  ends := rfl
  right := rfl
  ticket _ := rfl
  offset := by
    rintro p p' ⟨-, rfl⟩
    rw [Position.translate, Position.start_after]
    exact Nat.add_comm _ _
  next {c d c' d' w v cs} hc hd hr := by
    obtain ⟨-, hpos⟩ := hd.pos
    show Fork.resumed _ source other d.pos = d'.pos
    rw [hpos, Fork.resumed, if_neg]
    rintro ⟨hend, hlast⟩
    -- The source would end with a line end.
    obtain ⟨-, hsame⟩ := hc.inserted
    obtain ⟨hlength, -⟩ := hd.inserted
    obtain ⟨rfl, -⟩ := hc.reads hd hr
    have hlength : d.pos.offset + v.length = source.length := hlength
    obtain rfl : v = [] := List.length_eq_zero_iff.mp (by omega)
    rw [List.append_nil] at hsame
    exact hlast (by rw [hsame (by simp), List.getLast?_concat])
  last {c c' w} hc hw hline := by
    obtain ⟨hcounted, hpos⟩ := hc.pos
    obtain ⟨hlength, hsame⟩ := hc.inserted
    have hlast : source.getLast? ≠ some (.char '\n') := by
      rw [hsame hw]
      exact fun h => hline (List.mem_of_getLast? h)
    show Fork.resumed _ source other _ = ⟨c'.pos.offset + _ + _, c'.pos.line + 1, 1⟩
    rw [Fork.resumed, if_pos ⟨hlength, hlast⟩, hpos]
    have hline := hcounted.line
    simp only [Position.translate, Position.mk.injEq]
    refine ⟨?_, by omega, if_neg (by omega)⟩
    show _ + (c.pos.offset + _) + _ = _
    simp only [Fork.inserted]
    omega

end

/-! ## Runs -/

namespace ScanState

variable {front source other more : Text} {tickets left : Nat} {a r r' : ScanState}
  {tokens comments : List Token}

/-- The bodies of heredocs do not count as tokens. -/
theorem resolveHeredocs_last {nested : NestedScan} (h : a.resolveHeredocs nested = .ok r) :
    r.last = a.last ∧ r.tokens = a.tokens := by
  obtain ⟨p, -, h⟩ := bind_eq_ok.mp h
  cases h
  exact ⟨rfl, rfl⟩

/-- A scan remembers the kind of the last token. -/
theorem run_last {fuel : Nat} (hs : a.Ready source) (ha : a.last = a.tokens.head?.map Token.kind)
    (h : run fuel a = .ok (tokens, r)) : r.last = r.tokens.head?.map Token.kind := by
  have hkeep {nested : NestedScan} {s s' : ScanState} (_ : nested.Sound) (_ : s.Ready source)
      (hs : s.last = s.tokens.head?.map Token.kind) (hstep : s.step nested = .ok (some s')) :
      s'.last = s'.tokens.head?.map Token.kind := by
    cases step_moves hstep with
    | passes => exact hs
    | reads => rfl
    | quotes => rfl
    | opens => rfl
    | resolves _ hresolve =>
      obtain ⟨hlast, htokens⟩ := resolveHeredocs_last hresolve
      rw [hlast, htokens]
      exact hs
  obtain ⟨nested, s, -, -, hlast, hfinish⟩ := run_invariant hkeep hs ha h
  unfold finish at hfinish
  split at hfinish
  · split at hfinish
    · cases hfinish
    · cases hfinish
      exact hlast
  · obtain ⟨s', hresolve, hfinish⟩ := bind_eq_ok.mp hfinish
    cases hfinish
    obtain ⟨hlast', htokens⟩ := resolveHeredocs_last hresolve
    rw [hlast', htokens, hlast]

/-- The state in which the scan of a source ends. -/
structure Ended (source : Text) (tokens comments : List Token) (r : ScanState) : Prop where
  rest : r.cursor.rest = []
  idle : r.queue.waiting = []
  tokens : tokens = attachBodies r.tokens.reverse r.bodies ++ [Token.endAt r.cursor.pos]
  comments : comments = r.comments.reverse
  paired : (Token.heredocs r.tokens.reverse).length = r.bodies.length
  waits : ∀ t ∈ r.tokens, t.kind = .heredoc → ∃ tag, t.detail = .heredoc tag none
  last : r.last = r.tokens.head?.map Token.kind

variable (front other) in
/-- A scan that has got to a source in a text, after which a line may end, scans it as it is scanned
alone. -/
theorem run_inserted (hother : other = [] ∨ other.head? = some (.char '\n'))
    (hscan : Token.scan source = .ok (tokens, comments)) (ho : a.opener = none)
    (hlast : a.last.any TokenKind.endsValue = false) (hidle : a.queue.waiting = [])
    (hc : a.cursor = ⟨Position.start.after front, source ++ other⟩) {fuel : Nat}
    (hfuel : a.cursor.rest.length < fuel) :
    ∃ r r' left, Ended source tokens comments r ∧
      Joined (.inserted front source other a.queue.next) a.queue.next a r r' ∧
        r'.cursor.rest.length < left ∧ run fuel a = run left r' := by
  obtain ⟨⟨ts, r⟩, hrun, hscan⟩ := bind_eq_ok.mp hscan
  cases hscan
  have hready := start_ready_source source
  have hother' : (Fork.inserted front source other a.queue.next).Extends front.length
      a.queue.next := Fork.inserted_extends hother
  have hbegin : Joined (.inserted front source other a.queue.next) a.queue.next a
      (start none (Cursor.ofSource source)) a :=
    { cursor := .inl ⟨source, {
        rest := (List.append_nil source).symm
        other := by rw [hc]; rfl
        pos := ⟨Position.counted_start, by rw [hc]; exact (Position.translate_start _).symm⟩
        placed := ⟨front, by rw [hc]; exact List.append_assoc _ _ _, by rw [hc]⟩ }⟩
      openers := ⟨rfl, ho⟩
      last := hlast
      tokens := rfl
      comments := rfl
      next := (Nat.zero_add _).symm
      waiting := by rw [hidle]; exact .nil
      bodies := (List.append_nil _).symm }
  obtain ⟨r', left, hjoined, hrest, hwaiting, hleft, hsame⟩ :=
    run_joined hother' hready hbegin hfuel hrun
  obtain ⟨⟨answered, hpaired⟩, hfresh, htokens⟩ :=
    run_paired hready rfl ⟨_, _, start_paired none _⟩ (List.forall_mem_nil _) hrun
  refine ⟨r, r', left, ⟨hrest, hwaiting, htokens, rfl, ?_, ?_, run_last hready rfl hrun⟩, hjoined,
    hleft, hsame⟩
  · rw [hpaired.opened, List.append_nil, hpaired.answers.length_eq]
  · exact fun t ht hk => (hfresh t ht).waiting hk

/-- Where the source ends a line ends in the text, and the scan goes on after it. -/
theorem run_passes_line (hend : Ended source tokens comments r)
    (h : Joined (.inserted front source (.char '\n' :: more) tickets) tickets a r r')
    (hleft : r'.cursor.rest.length < left) :
    ∃ left', more.length < left' ∧ run left r' =
      run left'
        { r' with cursor := ⟨Position.start.after (front ++ source ++ [.char '\n']), more⟩ } := by
  have placed {c : Cursor} (hat : Cursor.At (front ++ source ++ .char '\n' :: more) c)
      (hc : c.rest = more) :
      c = ⟨Position.start.after (front ++ source ++ [.char '\n']), more⟩ := by
    obtain ⟨before, hs, hp⟩ := hat
    obtain ⟨pos, rest⟩ := c
    obtain rfl : rest = more := hc
    rw [List.append_cons] at hs
    rw [List.append_cancel_right hs]
    exact congrArg (Cursor.mk · rest) hp
  have hidle : r'.queue.waiting = [] := by
    have := h.waiting
    rwa [hend.idle, List.forall₂_nil_left_iff] at this
  rcases h.cursor with ⟨v, hc⟩ | hover
  · obtain rfl : v = [] := by
      have := hc.rest
      rw [hend.rest] at this
      exact (List.append_eq_nil_iff.mp this.symm).1
    have hrest : r'.cursor.rest = .char '\n' :: more := hc.other
    obtain ⟨m, rfl⟩ := Nat.exists_eq_succ_of_ne_zero (Nat.ne_zero_of_lt hleft)
    have hstep : r'.step (nestedRun m) = .ok (some r'.blank) := by
      unfold step
      rw [hrest]
      exact some_map_eq_ok.mpr (newline_idle hidle)
    have hskip : (r'.cursor.skip 1).rest = more := by rw [Cursor.skip, hrest]; rfl
    refine ⟨m, by rw [hrest, List.length_cons] at hleft; omega, ?_⟩
    rw [Nat.succ_eq_add_one, run_of_step hstep, ← placed (hc.placed.skip 1) hskip]
    rfl
  · have hrest : r'.cursor.rest = more := hover.other
    refine ⟨left, by rwa [← hrest], ?_⟩
    rw [← placed (hover.placed (List.cons_ne_nil _ _)) hrest]

/-- Where a text ends and no heredoc waits, the scan ends. -/
theorem run_stops (ho : a.opener = none) (hidle : a.queue.waiting = []) (hrest : a.cursor.rest = [])
    (hleft : 0 < left) :
    run left a = .ok (attachBodies a.tokens.reverse a.bodies ++ [Token.endAt a.cursor.pos], a) := by
  obtain ⟨m, rfl⟩ := Nat.exists_eq_succ_of_ne_zero (Nat.ne_of_gt hleft)
  rw [Nat.succ_eq_add_one, run_of_stop (by rw [step, hrest])]
  unfold finish
  rw [ho]
  dsimp only
  rw [resolveHeredocs_idle hidle]
  rfl

theorem run_ends (hend : Ended source tokens comments r)
    (h : Joined (.inserted front source [] tickets) tickets a r r')
    (hleft : r'.cursor.rest.length < left) :
    run left r' = .ok (attachBodies r'.tokens.reverse r'.bodies ++
      [(Token.endAt r.cursor.pos).seen (Fork.inserted front source [] tickets).left], r') := by
  obtain ⟨hrest, hcounted, hpos⟩ : r'.cursor.rest = [] ∧ r.cursor.pos.Counted ∧
      r'.cursor.pos = (Position.start.after front).translate r.cursor.pos := by
    rcases h.cursor with ⟨v, hc⟩ | hover
    · have hrest := hc.rest
      rw [hend.rest] at hrest
      refine ⟨?_, hc.pos⟩
      rw [hc.other, (List.append_eq_nil_iff.mp hrest.symm).1]
      rfl
    · refine ⟨hover.other, hover.counted, ?_⟩
      rw [hover.pos]
      show Fork.resumed _ _ [] _ = _
      unfold Fork.resumed
      split
      · rfl
      · rfl
  have hidle : r'.queue.waiting = [] := by
    have := h.waiting
    rwa [hend.idle, List.forall₂_nil_left_iff] at this
  have hfinal : Token.endAt r'.cursor.pos =
      (Token.endAt r.cursor.pos).seen (Fork.inserted front source [] tickets).left := by
    rw [hpos, Token.endAt, Token.endAt, ← hcounted.translate_sized]
    rfl
  rw [← hfinal]
  exact run_stops h.openers.2 hidle hrest (Nat.zero_lt_of_lt hleft)

/-! ## Bodies of both -/

theorem attachBodies_seen (v : View) (ts : List Token) (bodies : List HeredocBody) :
    attachBodies (ts.map (Token.seen v)) (bodies.map (HeredocBody.seen v)) =
      (attachBodies ts bodies).map (Token.seen v) := by
  induction ts, bodies using attachBodies.induct with
  | case1 bodies => rfl
  | case2 text span tag old ts body bodies ih =>
    cases old <;> exact congrArg (_ :: ·) ih
  | case3 t ts bodies hno ih =>
    rw [attachBodies.eq_3 _ _ _ hno, List.map_cons, List.map_cons, attachBodies.eq_3, ih]
    obtain ⟨kind, text, span, detail⟩ := t
    intro text' span' tag old body bodies' hbodies ht
    obtain ⟨b, bs, rfl, -, -⟩ := List.map_eq_cons_iff.mp hbodies
    rw [Token.seen, Token.mk.injEq] at ht
    obtain ⟨rfl, rfl, -, hdetail⟩ := ht
    cases detail with
    | plain => cases hdetail
    | fragments fs => cases hdetail
    | heredoc tag old => exact hno _ _ _ _ _ _ rfl rfl

/-- The first heredocs get the first bodies. -/
theorem attachBodies_append {ts us : List Token} {bodies more : List HeredocBody}
    (hwaits : ∀ t ∈ ts, t.kind = .heredoc → ∃ tag, t.detail = .heredoc tag none)
    (hlength : (Token.heredocs ts).length = bodies.length) :
    attachBodies (ts ++ us) (bodies ++ more) = attachBodies ts bodies ++ attachBodies us more := by
  induction ts generalizing bodies with
  | nil =>
    obtain rfl : bodies = [] := List.length_eq_zero_iff.mp hlength.symm
    rfl
  | cons t ts ih =>
    obtain ⟨kind, text, span, detail⟩ := t
    have hts := fun u hu => hwaits u (List.mem_cons_of_mem _ hu)
    by_cases hk : kind = .heredoc
    · subst hk
      obtain ⟨tag, hd⟩ := hwaits _ List.mem_cons_self rfl
      obtain rfl : detail = .heredoc tag none := hd
      rw [Token.heredocs_cons rfl] at hlength
      cases bodies with
      | nil => cases hlength
      | cons b bodies => exact congrArg (_ :: ·) (ih hts (Nat.succ.inj hlength))
    · have hother : (Token.mk kind text span detail).kind ≠ .heredoc := hk
      rw [Token.heredocs_cons_other hother] at hlength
      rw [List.cons_append, attachBodies, attachBodies, ih hts hlength, List.cons_append]
      · simp [hk]
      · simp [hk]

/-- The token before the end of input is the one that was read last. -/
theorem Ended.last_kind {source : Text} (h : Ended source tokens comments r) :
    r.last = tokens.dropLast.getLast?.map Token.kind := by
  have hkinds := attachBodies_kinds r.tokens.reverse r.bodies
  rw [h.last, h.tokens, List.dropLast_concat, ← List.getLast?_map, hkinds, List.getLast?_map,
    List.getLast?_reverse]

/-- The heredocs of a source get their bodies, and what comes after them gets the others. -/
theorem Ended.attachBodies_append {source : Text} (h : Ended source tokens comments r) (v : View)
    (us : List Token) (more : List HeredocBody) :
    attachBodies (r.tokens.reverse.map (Token.seen v) ++ us)
        (r.bodies.map (HeredocBody.seen v) ++ more) =
      tokens.dropLast.map (Token.seen v) ++ attachBodies us more := by
  have hwaits : ∀ t ∈ r.tokens.reverse.map (Token.seen v), t.kind = .heredoc →
      ∃ tag, t.detail = .heredoc tag none := by
    refine List.forall_mem_map.mpr fun t ht hk => ?_
    rw [Token.seen_kind] at hk
    obtain ⟨tag, hdetail⟩ := h.waits t (List.mem_reverse.mp ht) hk
    exact ⟨tag, by rw [Token.seen_detail, hdetail]; rfl⟩
  have hlength : (Token.heredocs (r.tokens.reverse.map (Token.seen v))).length =
      (r.bodies.map (HeredocBody.seen v)).length := by
    rw [List.length_map, ← h.paired, Token.heredocs, Token.heredocs, List.filter_map,
      List.length_map]
    simp only [Function.comp_def, Token.seen_kind]
  rw [ScanState.attachBodies_append hwaits hlength, attachBodies_seen, h.tokens,
    List.dropLast_concat]

/-- The tokens of a scan that went through two sources one after the other. -/
theorem Ended.attached {source₁ source₂ : Text} {ts₁ comments₁ ts₂ comments₂ : List Token}
    {r₁ r₂ : ScanState} {v₁ v₂ : View} (h₁ : Ended source₁ ts₁ comments₁ r₁)
    (h₂ : Ended source₂ ts₂ comments₂ r₂)
    (htokens : r'.tokens = r₂.tokens.map (Token.seen v₂) ++ r₁.tokens.map (Token.seen v₁))
    (hbodies : r'.bodies = r₁.bodies.map (HeredocBody.seen v₁) ++
      r₂.bodies.map (HeredocBody.seen v₂)) :
    attachBodies r'.tokens.reverse r'.bodies ++ [(Token.endAt r₂.cursor.pos).seen v₂] =
      ts₁.dropLast.map (Token.seen v₁) ++ ts₂.map (Token.seen v₂) := by
  rw [htokens, hbodies, List.reverse_append, ← List.map_reverse, ← List.map_reverse,
    h₁.attachBodies_append, attachBodies_seen, h₂.tokens, List.map_append, List.append_assoc]
  rfl

end ScanState

/-- A source that does not end with a value, a line end and another source are scanned like each of
them alone. -/
theorem Token.scan_append_line {source₁ source₂ : Text}
    {ts₁ comments₁ ts₂ comments₂ : List Token}
    (h₁ : Token.scan source₁ = .ok (ts₁, comments₁))
    (h₂ : Token.scan source₂ = .ok (ts₂, comments₂))
    (hlast : ∀ t ∈ ts₁.dropLast.getLast?, ¬ t.kind.endsValue) :
    ∃ v₁ v₂ : View, v₁.span = Span.translate Position.start ∧
      v₂.span = Span.translate (Position.start.after (source₁ ++ [.char '\n'])) ∧
        Token.scan (source₁ ++ .char '\n' :: source₂) =
          .ok (ts₁.dropLast.map (Token.seen v₁) ++ ts₂.map (Token.seen v₂),
            comments₁.map (Token.seen v₁) ++ comments₂.map (Token.seen v₂)) := by
  -- The first source is scanned in the text as it is alone, and the line end after it is passed.
  obtain ⟨r₁, r₁', left₁, hended₁, hjoined₁, hleft₁, hrun₁⟩ :=
    ScanState.run_inserted [] (.char '\n' :: source₂) (.inr rfl) h₁ rfl rfl rfl rfl
      (a := ScanState.start none (Cursor.ofSource (source₁ ++ .char '\n' :: source₂)))
      (Nat.lt_succ_self _)
  obtain ⟨left, hleft, hline⟩ := ScanState.run_passes_line hended₁ hjoined₁ hleft₁
  -- Nothing of this scan is left for the second source.
  have hidle : r₁'.queue.waiting = [] := by
    have hwaiting := hjoined₁.waiting
    rwa [hended₁.idle, List.forall₂_nil_left_iff] at hwaiting
  have hvalue : r₁'.last.any TokenKind.endsValue = false := by
    rw [hjoined₁.last, hended₁.last_kind]
    cases hkind : ts₁.dropLast.getLast? with
    | none => rfl
    | some t => exact Bool.eq_false_iff.mpr (hlast t hkind)
  obtain ⟨r₂, r₂', left₂, hended₂, hjoined₂, hleft₂, hrun₂⟩ :=
    ScanState.run_inserted (source₁ ++ [.char '\n']) [] (.inl rfl) h₂
      (a := { r₁' with cursor := ⟨_, source₂⟩ }) hjoined₁.openers.2 hvalue hidle
      (by rw [List.append_nil]) hleft
  have hend := ScanState.run_ends hended₂ hjoined₂ hleft₂
  have htokens := hjoined₂.tokens.trans
    (congrArg (_ ++ ·) (hjoined₁.tokens.trans (List.append_nil _)))
  have hcomments := hjoined₂.comments.trans
    (congrArg (_ ++ ·) (hjoined₁.comments.trans (List.append_nil _)))
  have hbodies := hjoined₂.bodies.trans
    (congrArg (· ++ _) (hjoined₁.bodies.trans (List.nil_append _)))
  rw [hended₁.attached hended₂ htokens hbodies] at hend
  refine ⟨(Fork.inserted [] source₁ (.char '\n' :: source₂) 0).left,
    (Fork.inserted (source₁ ++ [.char '\n']) source₂ [] r₁'.queue.next).left, rfl, rfl,
    bind_eq_ok.mpr ⟨_, hrun₁.trans (hline.trans (hrun₂.trans hend)), ?_⟩⟩
  rw [hended₁.comments, hended₂.comments, List.map_reverse, List.map_reverse,
    ← List.reverse_append]
  exact congrArg (fun cs => Except.ok (_, List.reverse cs)) hcomments

end ManifestTree
