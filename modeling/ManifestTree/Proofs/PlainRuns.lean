import ManifestTree.Proofs.ForkedScans

/-!
# Scans without heredocs

Where no heredoc waits for its body, a step of a scan passes a blank or a comment or reads a token,
and a line end is a blank like any other.  A scan that finds no heredoc is a row of such steps up to
the end of the source: `ScanState.PlainRun` has a constructor for each.
-/

namespace ManifestTree

open Text

namespace ScanState

variable {source : Text} {nested : NestedScan} {s r : ScanState}

/-- What a scan passes between tokens besides comments. -/
def IsGap (c : CodePoint) : Prop := c = '\n' ∨ c = ' ' ∨ c = '\t' ∨ c = '\r'

/-- The token is read between two states. -/
structure Takes (s : ScanState) (t : Token) (r : ScanState) : Prop where
  tokens : r.tokens = t :: s.tokens
  comments : r.comments = s.comments
  last : r.last = some t.kind
  passes : s.cursor.Passes t.text r.cursor
  fresh : t.Fresh
  keeps : s.Keeps r

/-- A run of steps to the end of the source, none of which opens a heredoc. -/
inductive PlainRun : ScanState → List Token → ScanState → Prop
  /-- The source ends. -/
  | ends {s : ScanState} : s.cursor.rest = [] →
      PlainRun s (s.tokens.reverse ++ [Token.endAt s.cursor.pos]) s
  /-- A blank or a line end is passed. -/
  | blank {s r : ScanState} {ts : List Token} {c : CodePoint} {cs : Text} :
      s.cursor.rest = c :: cs → IsGap c → PlainRun s.blank ts r → PlainRun s ts r
  /-- A comment is passed. -/
  | comment {s s₂ r : ScanState} {ts : List Token} {fuel : Nat} :
      s.step (nestedRun fuel) = .ok (some s₂) → s.PassesComment s₂ → PlainRun s₂ ts r →
      PlainRun s ts r
  /-- A token is read. -/
  | token {s s₂ r : ScanState} {ts : List Token} {t : Token} {fuel : Nat} :
      s.step (nestedRun fuel) = .ok (some s₂) → s.Takes t s₂ → PlainRun s₂ ts r → PlainRun s ts r

/-! ## Steps -/

/-- A blank or a line end is passed where no heredoc waits. -/
theorem step_gap {c : CodePoint} {cs : Text} (hc : s.cursor.rest = c :: cs) (hg : IsGap c)
    (hidle : s.queue.waiting = []) : s.step nested = .ok (some s.blank) := by
  unfold step
  rw [hc]
  dsimp only
  by_cases hline : c = '\n'
  · rw [if_pos hline, newline_idle hidle]
    rfl
  · rw [if_neg hline, if_pos]
    rcases hg with h | rfl | rfl | rfl
    · exact absurd h hline
    all_goals rfl

/-- A plain token of some characters at a cursor. -/
theorem emit_skip {n : Nat} (kind : TokenKind) (hn : n ≤ s.cursor.rest.length) :
    (s.emit kind (s.cursor.skip n) .plain).tokens =
      .mk kind (s.cursor.rest.take n) (Span.sized s.cursor.pos n) .plain :: s.tokens := by
  have hreads := Cursor.reads_skip s.cursor n
  show Token.mk _ _ _ _ :: _ = _
  rw [hreads.upTo_eq, hreads.spanTo_eq, ← Span.sized_eq, List.length_take_of_le hn]

theorem readToken_emits {c : CodePoint} (h : s.readToken nested c = .ok r)
    (hplain : r.queue.next = s.queue.next) :
    ∃ kind after detail, r = s.emit kind after detail := by
  have symbol (h : s.readSymbol c = .ok r) : ∃ kind after detail, r = s.emit kind after detail := by
    unfold readSymbol at h
    split at h
    · cases h
      exact ⟨_, _, _, rfl⟩
    · cases h
  unfold readToken at h
  split at h
  · unfold readVariable at h
    split at h
    · cases h
      exact ⟨_, _, _, rfl⟩
    · cases h
  split at h
  · unfold readString at h
    obtain ⟨p, -, h⟩ := bind_eq_ok.mp h
    cases h
    exact ⟨_, _, _, rfl⟩
  split at h
  · unfold readNumber at h
    split at h
    · cases h
    dsimp only at h
    split at h
    · cases h
    split at h
    · cases h
    cases h
    exact ⟨_, _, _, rfl⟩
  split at h
  · have := readHeredocTag_next h
    omega
  unfold readWord at h
  split at h
  · cases h
    exact ⟨_, _, _, rfl⟩
  split at h
  · cases h
    exact ⟨_, _, _, rfl⟩
  split at h
  · cases h
    exact ⟨_, _, _, rfl⟩
  · exact symbol h

theorem readToken_takes (hn : nested.Sound) {c : CodePoint} {cs : Text}
    (hc : s.cursor.rest = c :: cs) (hw : c.isWhitespace = false)
    (h : s.readToken nested c = .ok r) (hplain : r.queue.next = s.queue.next) :
    ∃ t, s.Takes t r := by
  obtain ⟨xs, hlays⟩ : ∃ xs, s.Lays [] xs r := readToken_lays hn hc hw h
  obtain ⟨ds, hds⟩ := hlays.laid.passes
  obtain ⟨kind, after, detail, rfl⟩ := readToken_emits h hplain
  have htokens : xs.filterMap Stretch.token? =
      [Token.mk kind (s.cursor.upTo after) (s.cursor.spanTo after) detail] := by
    have heq : Token.mk kind (s.cursor.upTo after) (s.cursor.spanTo after) detail :: s.tokens =
        (xs.filterMap Stretch.token?).reverse ++ s.tokens := hlays.tokens
    rw [← List.singleton_append] at heq
    rw [← List.reverse_reverse (xs.filterMap _), ← List.append_cancel_right heq]
    rfl
  refine ⟨_, rfl, rfl, rfl, ?_, ?_, ⟨rfl, rfl, rfl⟩⟩
  · have hread : s.cursor.upTo after = ds := by
      have hoffset : after.offset = s.cursor.offset + ds.length := hds.offset
      have hrest : s.cursor.rest = ds ++ after.rest := hds.rest
      rw [Cursor.upTo, hoffset, Nat.add_sub_cancel_left, hrest, List.take_left]
    show s.cursor.Passes (s.cursor.upTo after) after
    rw [hread]
    exact hds
  · exact hlays.laid.fresh _ (by rw [htokens]; exact List.mem_singleton_self _)

/-- Where no heredoc waits a step passes a blank or a comment or reads a token, unless it opens a
heredoc. -/
theorem step_plain (hn : nested.Sound) (hidle : s.queue.waiting = [])
    (h : s.step nested = .ok (some r)) (hplain : r.queue.next = s.queue.next) :
    (∃ c cs, s.cursor.rest = c :: cs ∧ IsGap c ∧ r = s.blank) ∨ s.PassesComment r ∨
      ∃ t, s.Takes t r := by
  have hstep := h
  unfold step at h
  split at h
  · cases h
  rename_i c cs hc
  by_cases hgap : IsGap c
  · rw [step_gap hc hgap hidle] at hstep
    cases hstep
    exact .inl ⟨c, cs, hc, hgap, rfl⟩
  have hline : c ≠ '\n' := fun h => hgap (.inl h)
  have hspace : ¬ (c = ' ' || c = '\t' || c = '\r') = true := by
    simp only [Bool.or_eq_true, decide_eq_true_eq]
    rintro ((h | h) | h)
    · exact hgap (.inr (.inl h))
    · exact hgap (.inr (.inr (.inl h)))
    · exact hgap (.inr (.inr (.inr h)))
  have hw : c.isWhitespace = false := by
    simp only [Bool.or_eq_true, decide_eq_true_eq, not_or] at hspace
    simp [CodePoint.isWhitespace, hspace, hline]
  rw [if_neg hline, if_neg hspace] at h
  split at h
  case isTrue hhash =>
    cases h
    exact .inr (.inl (lineComment_passes (hhash ▸ hc)))
  split at h
  case isTrue hslash =>
    simp only [Bool.and_eq_true, decide_eq_true_eq] at hslash
    obtain ⟨rfl, hstar⟩ := hslash
    obtain ⟨ds, rfl⟩ := List.head?_eq_some_iff.mp hstar
    exact .inr (.inl (blockComment_passes hc (some_map_eq_ok.mp h)))
  split at h
  · cases h
  · exact .inr (.inr (readToken_takes hn hc hw (some_map_eq_ok.mp h) hplain))

/-! ## Runs -/

/-- Outside of interpolations no heredoc was opened yet. -/
structure Plain (s : ScanState) : Prop where
  opener : s.opener = none
  waiting : s.queue.waiting = []
  bodies : s.bodies = []

/-- Nothing was read before a source. -/
theorem start_plain (c : Cursor) : (start none c).Plain := ⟨rfl, rfl, rfl⟩

theorem Keeps.plain {a : ScanState} (h : a.Keeps s) (ha : a.Plain) : s.Plain :=
  ⟨h.opener.trans ha.opener, by rw [h.queue, ha.waiting], h.bodies.trans ha.bodies⟩

theorem Plain.blank (h : s.Plain) : s.blank.Plain := ⟨h.opener, h.waiting, h.bodies⟩

theorem PassesComment.plain (h : s.PassesComment r) (hs : s.Plain) : r.Plain := by
  obtain ⟨cs, after, -, -, rfl⟩ := h
  exact ⟨hs.opener, hs.waiting, hs.bodies⟩

theorem attachBodies_kinds (ts : List Token) (bodies : List HeredocBody) :
    (attachBodies ts bodies).map Token.kind = ts.map Token.kind := by
  induction ts, bodies using attachBodies.induct with
  | case1 bodies => rw [attachBodies]
  | case2 text span tag _ ts body bodies ih =>
    rw [attachBodies, List.map_cons, List.map_cons, ih]
    rfl
  | case3 t ts bodies hno ih =>
    rw [attachBodies, List.map_cons, List.map_cons, ih]
    exact hno

/-- The tokens of a state are among those of the run that goes on from it. -/
theorem run_kinds {fuel : Nat} {ts : List Token} (hs : s.Ready source)
    (h : run fuel s = .ok (ts, r)) {t : Token} (ht : t ∈ s.tokens) :
    ∃ u ∈ ts, u.kind = t.kind := by
  obtain ⟨nested, s₁, xs, -, hlays, -, hfinish⟩ := run_lays hs h
  have hmem : t.kind ∈ s₁.tokens.reverse.map Token.kind := by
    rw [hlays.tokens]
    simp only [List.map_reverse, List.mem_reverse, List.map_append, List.mem_append]
    exact .inr (List.mem_map_of_mem ht)
  have hkinds : t.kind ∈ ts.map Token.kind := by
    unfold finish at hfinish
    split at hfinish
    · split at hfinish
      · cases hfinish
      · cases hfinish
        rw [List.map_append]
        exact List.mem_append_left _ hmem
    · obtain ⟨s₂, hres, hfinish⟩ := bind_eq_ok.mp hfinish
      cases hfinish
      unfold resolveHeredocs at hres
      obtain ⟨p, -, hres⟩ := bind_eq_ok.mp hres
      cases hres
      rw [List.map_append, attachBodies_kinds]
      exact List.mem_append_left _ hmem
  obtain ⟨u, hu, hk⟩ := List.mem_map.mp hkinds
  exact ⟨u, hu, hk⟩

/-- Where no heredoc waits a run ends with the source. -/
theorem finish_plain (hs : s.Plain) :
    s.finish nested = .ok (s.tokens.reverse ++ [Token.endAt s.cursor.pos], s) := by
  unfold finish
  rw [hs.opener]
  dsimp only
  rw [resolveHeredocs_idle hs.waiting]
  show Except.ok (attachBodies s.tokens.reverse s.bodies ++ _, s) = _
  rw [hs.bodies, attachBodies_nil]

/-- A run that finds no heredoc is a row of plain steps. -/
theorem run_plain {fuel : Nat} {ts : List Token} (hs : s.Plain) (hready : s.Ready source)
    (h : run fuel s = .ok (ts, r)) (hplain : ∀ t ∈ ts, t.kind ≠ .heredoc) : PlainRun s ts r := by
  induction fuel generalizing s with
  | zero => cases h
  | succ fuel ih =>
    rcases run_cases h with ⟨s₂, hstep, h⟩ | ⟨hstep, hfinish⟩
    · obtain ⟨xs, hlays⟩ := step_lays (nestedRun_sound fuel) hready hstep
      have hready₂ := hlays.ready hready
      have hnext : s₂.queue.next = s.queue.next := by
        refine (step_opens hstep).resolve_right ?_
        rintro ⟨-, t, htokens, hk⟩
        obtain ⟨u, hu, hsame⟩ := run_kinds hready₂ h (t := t) (by rw [htokens]; simp)
        exact hplain u hu (hsame.trans hk)
      rcases step_plain (nestedRun_sound fuel) hs.waiting hstep hnext with
        ⟨c, cs, hc, hgap, rfl⟩ | hcomment | ⟨t, ht⟩
      · exact .blank hc hgap (ih hs.blank hready₂ h)
      · exact .comment hstep hcomment (ih (hcomment.plain hs) hready₂ h)
      · exact .token hstep ht (ih (ht.keeps.plain hs) hready₂ h)
    · have hnil : s.cursor.rest = [] := by
        refine (step_stops hstep).resolve_right ?_
        rintro ⟨ho, -⟩
        rw [hs.opener] at ho
        cases ho
      rw [finish_plain hs] at hfinish
      cases hfinish
      exact .ends hnil

/-- The tokens of a run are those of the state where it ends, which has those found before. -/
theorem PlainRun.found {ts : List Token} (h : PlainRun s ts r) :
    ∃ new, r.tokens = new ++ s.tokens ∧ ts = r.tokens.reverse ++ [Token.endAt r.cursor.pos] := by
  induction h with
  | ends => exact ⟨[], rfl, rfl⟩
  | blank _ _ _ ih => exact ih
  | comment _ hc _ ih =>
    obtain ⟨cs, after, -, -, rfl⟩ := hc
    exact ih
  | @token s s₂ r ts t fuel _ ht _ ih =>
    obtain ⟨new, hnew, hts⟩ := ih
    exact ⟨new ++ [t], by rw [hnew, ht.tokens, List.append_assoc]; rfl, hts⟩

/-! ## Runs beside others -/

variable {k : Fork} {a a' s' : ScanState} {w : Text}

/-- Where the texts end together, a step that opens no heredoc is taken beside it too. -/
theorem Beside.steps (hk : k.Lawful) (hrest : k.rest = []) (h : Beside k a a' w s s')
    (ha : a.Plain) (ha' : a'.Plain) {fuel fuel' : Nat}
    (hstep : s.step (nestedRun fuel) = .ok (some r)) (hplain : r.queue.next = s.queue.next)
    (hfuel : s'.cursor.rest.length < fuel') :
    ∃ m r' v, fuel' = m + 1 ∧ s'.step (nestedRun m) = .ok (some r') ∧ Beside k a a' v r r' ∧
      r'.cursor.rest.length < m := by
  obtain ⟨m, rfl⟩ := Nat.exists_eq_succ_of_ne_zero (Nat.ne_zero_of_lt hfuel)
  have hm := Nat.le_of_lt_succ hfuel
  have hw : w ≠ [] := by
    rintro rfl
    have hnil : s.cursor.rest = [] := by rw [h.cursor.rest, hrest]; rfl
    unfold step at hstep
    rw [hnil] at hstep
    cases hstep
  obtain ⟨r', v, hok, hr⟩ := step_beside hk (nestedRun_sound fuel) (nestedRun_beside hk fuel m) h
    hw hm (fun _ => ⟨ha.waiting, ha'.waiting⟩) hstep hplain (by rw [hrest]; exact Nat.zero_le _)
  have hgoes := step_scans (nestedRun_sound m) (nestedRun_settles k.whole m)
    (fun _ => h.cursor.placed) hm
  rw [hok] at hgoes
  exact ⟨m, r', v, rfl, hok, hr, Nat.lt_of_lt_of_le (hgoes r' rfl).shorter hm⟩

/-- A scan without heredocs goes on in the second text as in the first, if the texts end
together. -/
theorem PlainRun.beside (hk : k.Lawful) (hrest : k.rest = []) (hother : k.other = [])
    {ts : List Token} (h : PlainRun s ts r) (hs : Beside k a a' w s s') (ha : a.Plain)
    (ha' : a'.Plain) {fuel : Nat} (hfuel : s'.cursor.rest.length < fuel) :
    ∃ r' v, run fuel s' = .ok (r'.tokens.reverse ++ [Token.endAt r'.cursor.pos], r') ∧
      Beside k a a' v r r' := by
  induction h generalizing s' w fuel with
  | @ends s hnil =>
    obtain ⟨m, rfl⟩ := Nat.exists_eq_succ_of_ne_zero (Nat.ne_zero_of_lt hfuel)
    have hnil' : s'.cursor.rest = [] := by
      rw [hs.cursor.other_of_rest (hnil.trans hrest.symm), hother]
    refine ⟨s', w, ?_, hs⟩
    rw [run_of_stop (by rw [step, hnil']), finish_plain (hs.keeps.2.plain ha')]
  | blank hc hgap _ ih =>
    have hstep : step (nestedRun 0) _ = _ := step_gap hc hgap (hs.keeps.1.plain ha).waiting
    obtain ⟨m, s₂', v, rfl, hok, hs₂, hlt⟩ := hs.steps hk hrest ha ha' hstep rfl hfuel
    rw [run_of_step hok]
    exact ih hs₂ hlt
  | @comment s s₂ r ts f hstep hc _ ih =>
    have hplain : s₂.queue = s.queue := by
      obtain ⟨cs, after, -, -, rfl⟩ := hc
      rfl
    obtain ⟨m, s₂', v, rfl, hok, hs₂, hlt⟩ :=
      hs.steps hk hrest ha ha' hstep (by rw [hplain]) hfuel
    rw [run_of_step hok]
    exact ih hs₂ hlt
  | token hstep ht _ ih =>
    obtain ⟨m, s₂', v, rfl, hok, hs₂, hlt⟩ :=
      hs.steps hk hrest ha ha' hstep (by rw [ht.keeps.queue]) hfuel
    rw [run_of_step hok]
    exact ih hs₂ hlt

end ScanState

end ManifestTree
