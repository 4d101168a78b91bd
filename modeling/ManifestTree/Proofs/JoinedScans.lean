import ManifestTree.Proofs.ForkedHeredocs

/-!
# A scan within another

The scan of a text is a part of the scan of a longer one in which the same characters stand.
`ScanState.Joined` relates states of both: since it came to these characters the longer scan has
found what the other has, under a view.  Every step of the shorter scan keeps this, also one that
opens heredocs or reads their bodies, and so does its run up to the end of the shorter text.
-/

namespace ManifestTree

open Text

variable {k : Fork} {shift tickets : Nat}

/-- A heredoc opened in both texts waits in both for the same body. -/
theorem HeredocQueue.enqueue_beside {q q' queue : HeredocQueue} {inside : Text}
    {span : Span} {pending : PendingHeredoc} (span' : Span) (hnext : q'.next = q.next + tickets)
    (hw : List.Forall₂ (PendingHeredoc.Beside tickets) q.waiting q'.waiting)
    (h : q.enqueue inside span = .ok (pending, queue)) :
    ∃ pending' queue', q'.enqueue inside span' = .ok (pending', queue') ∧
      pending'.tag = pending.tag ∧ queue'.next = queue.next + tickets ∧
        List.Forall₂ (PendingHeredoc.Beside tickets) queue.waiting queue'.waiting := by
  unfold enqueue at h ⊢
  split at h
  · cases h
    refine ⟨_, _, rfl, rfl, ?_, List.rel_append hw (.cons ⟨rfl, hnext⟩ .nil)⟩
    show q'.next + 1 = q.next + 1 + tickets
    omega
  · cases h

namespace ScanState

variable {nested nested' : NestedScan} {a s s' r r' : ScanState} {n : Nat} {w : Text}

/-- A scan of the first text, and one of the second that has found the same since it was in the state
`a`. -/
structure Joined (k : Fork) (tickets : Nat) (a s s' : ScanState) : Prop where
  cursor : s.cursor.Meets k s'.cursor
  openers : s.opener = none ∧ s'.opener = none
  last : s'.last.any TokenKind.endsValue = s.last.any TokenKind.endsValue
  tokens : s'.tokens = s.tokens.map (Token.seen k.left) ++ a.tokens
  comments : s'.comments = s.comments.map (Token.seen k.left) ++ a.comments
  next : s'.queue.next = s.queue.next + tickets
  waiting : List.Forall₂ (PendingHeredoc.Beside tickets) s.queue.waiting s'.queue.waiting
  bodies : s'.bodies = a.bodies ++ s.bodies.map (HeredocBody.seen k.left)

/-! ## Steps -/

/-- States in the common part, seen from states that are joined. -/
theorem Joined.beside (h : Joined k tickets a s s') (hc : s.cursor.Beside k w s'.cursor) :
    Beside k s s' w s s' where
  cursor := hc
  last := h.last
  closes ho := by
    rw [h.openers.2] at ho
    cases ho
  tokens := .refl _ _ _ _
  comments := .refl _ _ _ _
  keeps := ⟨⟨rfl, rfl, rfl⟩, ⟨rfl, rfl, rfl⟩⟩

theorem Grown.seen (hk : k.right = .plain) {ts ts' us us' : List Token}
    (h : Grown (Token.seen k.left) (Token.seen k.right) ts ts' us us') {found : List Token}
    (hts : ts' = ts.map (Token.seen k.left) ++ found) :
    us' = us.map (Token.seen k.left) ++ found := by
  obtain ⟨new, new', rfl, rfl, hmap⟩ := h
  rw [hk, Token.seen_plain_eq_id, List.map_id] at hmap
  rw [hts, hmap, List.map_append, List.append_assoc]

/-- What keeps states beside each other keeps them joined. -/
theorem Joined.goes (hk : k.Extends shift tickets) (h : Joined k tickets a s s')
    (hr : Beside k s s' w r r') : Joined k tickets a r r' where
  cursor := .inl ⟨w, hr.cursor⟩
  openers := ⟨hr.keeps.1.opener.trans h.openers.1, hr.keeps.2.opener.trans h.openers.2⟩
  last := hr.last
  tokens := hr.tokens.seen hk.right h.tokens
  comments := hr.comments.seen hk.right h.comments
  next := by rw [hr.keeps.1.queue, hr.keeps.2.queue, h.next]
  waiting := by
    rw [hr.keeps.1.queue, hr.keeps.2.queue]
    exact h.waiting
  bodies := by rw [hr.keeps.1.bodies, hr.keeps.2.bodies, h.bodies]

theorem readWord_queue {c : CodePoint} (h : s.readWord c = .ok r) : r.queue = s.queue := by
  unfold readWord at h
  split at h
  · cases h
    rfl
  split at h
  · cases h
    rfl
  split at h
  · cases h
    rfl
  unfold readSymbol at h
  split at h
  · cases h
    rfl
  · cases h

/-- Only a tag adds to the heredocs that were opened. -/
theorem step_tag (h : s.step nested = .ok (some r)) (hnext : r.queue.next ≠ s.queue.next) :
    ∃ cs, s.cursor.rest = .char '@' :: .char '(' :: cs := by
  unfold step at h
  split at h
  · cases h
  rename_i c cs hc
  split at h
  · obtain ⟨p, -, h⟩ := bind_eq_ok.mp (some_map_eq_ok.mp h)
    cases h
    exact (hnext rfl).elim
  split at h
  · cases h
    exact (hnext rfl).elim
  split at h
  · cases h
    exact (hnext rfl).elim
  split at h
  · have h := some_map_eq_ok.mp h
    unfold blockComment at h
    split at h
    · cases h
      exact (hnext rfl).elim
    · cases h
  split at h
  · cases h
  have h := some_map_eq_ok.mp h
  unfold readToken at h
  split at h
  · unfold readVariable at h
    split at h
    · cases h
      exact (hnext rfl).elim
    · cases h
  split at h
  · obtain ⟨p, -, h⟩ := bind_eq_ok.mp h
    cases h
    exact (hnext rfl).elim
  split at h
  · unfold readNumber at h
    split at h
    · cases h
    dsimp only at h
    split at h
    · cases h
    split at h
    · cases h
    cases h
    exact (hnext rfl).elim
  split at h
  · rename_i hopen
    simp only [hc, Bool.and_eq_true, decide_eq_true_eq, List.getElem?_cons_succ,
      ← List.head?_eq_getElem?] at hopen
    obtain ⟨ds, rfl⟩ := List.head?_eq_some_iff.mp hopen.2
    exact ⟨ds, by rw [hc, hopen.1]⟩
  · exact (hnext (by rw [readWord_queue h])).elim

/-- Where a tag stands it is read. -/
theorem step_at_tag {cs : Text} (hc : s.cursor.rest = .char '@' :: .char '(' :: cs) :
    s.step nested = some <$> s.readHeredocTag := by
  unfold step
  rw [hc]
  have hbrace : s.atClosingBrace '@' = false := by simp [atClosingBrace]
  have htoken : s.readToken nested '@' = s.readHeredocTag := by
    unfold readToken
    rw [hc]
    rfl
  dsimp only
  rw [hbrace, htoken]
  rfl

theorem readHeredocTag_joined (hk : k.Extends shift tickets) (h : Joined k tickets a s s')
    (hc : s.cursor.Beside k w s'.cursor) (hr : s.readHeredocTag = .ok r) :
    ∃ r', s'.readHeredocTag = .ok r' ∧ Joined k tickets a r r' := by
  unfold readHeredocTag at hr ⊢
  dsimp only at hr ⊢
  have hrest : s.cursor.rest = w := by rw [hc.rest, hk.ends, List.append_nil]
  split at hr
  · cases hr
  rename_i hclose
  rw [if_neg (by rw [h.openers.1]; rintro ⟨⟩)] at hr
  have hlong :
      ((w.drop 2).takeWhile fun c => c ≠ .char ')' && c ≠ .char '\n').length + 2 < w.length := by
    rw [hrest] at hclose
    by_contra hlt
    refine hclose ?_
    rw [Cursor.skip, hrest, List.drop_eq_nil_of_le (Nat.not_lt.mp hlt)]
    rintro ⟨⟩
  have hinside : (s'.cursor.rest.drop 2).takeWhile (fun c => c ≠ .char ')' && c ≠ .char '\n') =
      (w.drop 2).takeWhile fun c => c ≠ .char ')' && c ≠ .char '\n' := by
    rw [hc.other, List.drop_append_of_le_length (by omega), List.takeWhile_append, if_neg]
    rw [List.length_drop]
    omega
  rw [hrest] at hr hclose
  rw [hinside]
  generalize ((w.drop 2).takeWhile fun c => c ≠ .char ')' && c ≠ .char '\n') = inside
    at hr hclose hlong ⊢
  have hclosed := hc.skip hk.toLawful (Nat.le_of_lt hlong)
  have hmore : w.drop (inside.length + 2) ≠ [] := by
    rw [Ne, List.drop_eq_nil_iff]
    omega
  have hhead : (s.cursor.skip (inside.length + 2)).rest.head? = (w.drop (inside.length + 2)).head? := by
    rw [hclosed.rest, hk.ends, List.append_nil]
  have hafter := hclosed.skip hk.toLawful (List.length_pos_iff.mpr hmore)
  obtain ⟨⟨pending, queue⟩, henqueue, hr⟩ := bind_eq_ok.mp hr
  obtain ⟨pending', queue', henqueue', htag, hnext, hwaiting⟩ := HeredocQueue.enqueue_beside
    (s'.cursor.spanTo ((s'.cursor.skip (inside.length + 2)).skip 1)) h.next h.waiting henqueue
  cases hr
  rw [if_neg (by rwa [hclosed.other, List.head?_append_of_ne_nil _ hmore, ← hhead]),
    if_neg (by rw [h.openers.2]; rintro ⟨⟩)]
  refine ⟨_, bind_eq_ok.mpr ⟨_, henqueue', rfl⟩, ?_⟩
  exact { h with
    cursor := .inl ⟨_, hafter⟩
    last := rfl
    tokens := by
      have htoken := hc.token hk.toLawful hafter
        ((Cursor.reads_skip s.cursor _).trans (Cursor.reads_skip _ 1)) .heredoc
        (show (TokenDetail.heredoc pending'.tag none).seen k.right =
          (TokenDetail.heredoc pending.tag none).seen k.left by rw [htag]; rfl)
      rw [hk.right, Token.seen_plain] at htoken
      show Token.mk _ _ _ _ :: s'.tokens = _
      rw [htoken, h.tokens]
      rfl
    next := hnext
    waiting := hwaiting }

/-- At a line end the bodies of the same heredocs are read. -/
theorem newline_joined (hk : k.Extends shift tickets) (hn : nested.Sound)
    (hs : nested.Beside k n nested') (h : Joined k tickets a s s')
    (hc : s.cursor.Beside k w s'.cursor) (hw : w ≠ []) (htagged : ∀ p ∈ s.queue.waiting, p.Tagged)
    (hlen : s'.cursor.rest.length ≤ n) (hr : s.newline nested = .ok r) :
    ∃ r', s'.newline nested' = .ok r' ∧ Joined k tickets a r r' := by
  unfold newline resolveHeredocs at hr ⊢
  obtain ⟨⟨bodies, cursor⟩, hbodies, hr⟩ := bind_eq_ok.mp hr
  cases hr
  have hskip := hc.skip hk.toLawful (List.length_pos_iff.mpr hw)
  have hle : (s'.cursor.skip 1).rest.length ≤ n := by
    simp only [Cursor.skip, List.length_drop]
    omega
  obtain ⟨cursor', hbodies', hmeets⟩ :=
    resolveAll_beside hk hn hs h.waiting htagged (.inl ⟨_, hskip⟩) hle hbodies
  refine ⟨_, bind_eq_ok.mpr ⟨_, hbodies', rfl⟩, ?_⟩
  exact { h with
    cursor := hmeets
    waiting := .nil
    bodies := by rw [h.bodies, List.map_append, List.append_assoc] }

theorem rest_ne_nil_of_step (h : s.step nested = .ok (some r)) : s.cursor.rest ≠ [] := by
  intro hnil
  unfold step at h
  rw [hnil] at h
  cases h

theorem step_joined (hk : k.Extends shift tickets) (hn : nested.Sound)
    (hs : nested.Beside k n nested') (h : Joined k tickets a s s')
    (htagged : ∀ p ∈ s.queue.waiting, p.Tagged) (hlen : s'.cursor.rest.length ≤ n)
    (hstep : s.step nested = .ok (some r)) :
    ∃ r', s'.step nested' = .ok (some r') ∧ Joined k tickets a r r' := by
  have hne := rest_ne_nil_of_step hstep
  obtain ⟨w, hc⟩ := h.cursor.beside hne
  have hrest : s.cursor.rest = w := by rw [hc.rest, hk.ends, List.append_nil]
  rw [hrest] at hne
  by_cases hline : w.head? = some (.char '\n')
  · obtain ⟨cs, rfl⟩ := List.head?_eq_some_iff.mp hline
    unfold step at hstep ⊢
    rw [hrest] at hstep
    rw [hc.other]
    obtain ⟨r', hr', hr⟩ :=
      newline_joined hk hn hs h hc hne htagged hlen (some_map_eq_ok.mp hstep)
    exact ⟨r', some_map_eq_ok.mpr hr', hr⟩
  by_cases hnext : r.queue.next = s.queue.next
  · obtain ⟨r', v, hok, hr⟩ := step_beside hk.toLawful hn hs (h.beside hc) hne hlen
      (fun hhead => absurd hhead hline) hstep hnext (by rw [hk.ends]; exact Nat.zero_le _)
    exact ⟨r', hok, h.goes hk hr⟩
  · obtain ⟨cs, htag⟩ := step_tag hstep hnext
    rw [step_at_tag htag] at hstep
    obtain ⟨r', hr', hr⟩ := readHeredocTag_joined hk h hc (some_map_eq_ok.mp hstep)
    have htag' : s'.cursor.rest = .char '@' :: .char '(' :: (cs ++ k.other) := by
      rw [hc.other, ← hrest, htag]
      rfl
    exact ⟨r', by rw [step_at_tag htag']; exact some_map_eq_ok.mpr hr', hr⟩

/-! ## Runs -/

/-- At the end of a source no heredoc waits, and the scan ends in the state it is in. -/
theorem finish_end {source : Text} {ts : List Token} (hn : nested.Sound) (hs : s.Ready source)
    (ho : s.opener = none) (hnil : s.cursor.rest = []) (h : s.finish nested = .ok (ts, r)) :
    s.queue.waiting = [] ∧ r = s := by
  unfold finish at h
  rw [ho] at h
  obtain ⟨s₂, hresolve, h⟩ := bind_eq_ok.mp h
  cases h
  have hwaiting : s.queue.waiting = [] := by
    by_contra hne
    obtain ⟨p, waiting, hw⟩ := List.exists_cons_of_ne_nil hne
    obtain ⟨q, hq, -⟩ := bind_eq_ok.mp hresolve
    rw [hw] at hq
    obtain ⟨b, hb, -⟩ := bind_eq_ok.mp hq
    have hresolved : PendingHeredoc.Resolved [] s.cursor b :=
      PendingHeredoc.resolve_resolved hn (hs.tagged p (hw ▸ List.mem_cons_self))
        (fun hne => absurd hnil hne) hb
    exact hresolved.rest_ne_nil hnil
  rw [resolveHeredocs_idle hwaiting] at hresolve
  cases hresolve
  exact ⟨hwaiting, rfl⟩

/-- The run of the shorter text is a part of the run of the longer one. -/
theorem run_joined (hk : k.Extends shift tickets) {source : Text} {fuel fuel' : Nat}
    {ts : List Token} (hs : s.Ready source) (h : Joined k tickets a s s')
    (hfuel : s'.cursor.rest.length < fuel') (hr : run fuel s = .ok (ts, r)) :
    ∃ r' left, Joined k tickets a r r' ∧ r.cursor.rest = [] ∧ r.queue.waiting = [] ∧
      r'.cursor.rest.length < left ∧ run fuel' s' = run left r' := by
  induction fuel generalizing fuel' s s' with
  | zero => cases hr
  | succ fuel ih =>
    obtain ⟨m, rfl⟩ := Nat.exists_eq_succ_of_ne_zero (Nat.ne_zero_of_lt hfuel)
    have hn := nestedRun_sound fuel
    have hlen : s'.cursor.rest.length ≤ m := Nat.le_of_lt_succ hfuel
    rcases run_cases hr with ⟨s₂, hstep, hr⟩ | ⟨hstep, hfinish⟩
    · obtain ⟨s₂', hok, h₂⟩ := step_joined hk hn (nestedRun_beside hk.toLawful fuel m) h hs.tagged
        hlen hstep
      obtain ⟨w, hc⟩ := h.cursor.beside (rest_ne_nil_of_step hstep)
      have hgoes := step_scans (nestedRun_sound m) (nestedRun_settles k.whole m) 
        (fun _ => hc.placed) hlen
      rw [hok] at hgoes
      have hshorter := (hgoes s₂' rfl).shorter
      obtain ⟨xs, hlays⟩ := step_lays hn hs hstep
      rw [run_of_step hok]
      exact ih (hlays.ready hs) h₂ (by omega) hr
    · have hnil : s.cursor.rest = [] := (step_stops hstep).resolve_right fun hbrace => by
        rw [h.openers.1] at hbrace
        cases hbrace.1
      obtain ⟨hwaiting, rfl⟩ := finish_end hn hs h.openers.1 hnil hfinish
      exact ⟨s', _, h, hnil, hwaiting, hfuel, rfl⟩

end ScanState

end ManifestTree
