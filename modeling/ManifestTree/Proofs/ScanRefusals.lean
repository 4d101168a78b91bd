import ManifestTree.Proofs.ScanMoves
import ManifestTree.Proofs.ScanSettling

/-!
# Where a scan is refused

A scan that is refused points at something it has read: the characters at the cursor, the opener of
a string or of an interpolation, or the tag of a heredoc without an end.  So the span of the refusal
is right about the source and begins at one of its characters.  `RefusesWithin` says so of a part of
a scan.
-/

namespace ManifestTree

variable {source : Text}

/-! ## Spans of characters -/

/-- The span is right about the text and begins at one of its characters. -/
structure Span.Within (source : Text) (s : Span) : Prop where
  correct : s.Correct source
  begins : s.start < source.length

theorem Span.Covers.within {s : Span} {cs : Text} (h : s.Covers source cs) (hne : cs ≠ []) :
    s.Within source := by
  have hlt := h.nonempty hne
  have hends := h.correct.ends
  exact ⟨h.correct, by omega⟩

/-- What is read next makes such a span. -/
theorem Cursor.Reads.spanTo_within {c d : Cursor} {cs : Text} (h : c.Reads cs d)
    (hat : Cursor.At source c) (hne : cs ≠ []) : (c.spanTo d).Within source := by
  rw [h.spanTo_eq]
  exact (Span.covers_between (h.holds hat)).within hne

/-- So do the next characters, if there are as many. -/
theorem Cursor.At.here_within {c : Cursor} (cs : Text) {rest : Text}
    (hat : Cursor.At source c) (hc : c.rest = cs ++ rest) (hne : cs ≠ []) :
    (c.here cs.length).Within source := by
  have hread := Cursor.reads_skip_length hc
  have hspan : c.here cs.length = c.spanTo (c.skip cs.length) := by
    rw [hread.spanTo_eq, Cursor.here, Span.sized_eq]
  rw [hspan]
  exact hread.spanTo_within hat hne

/-- So does the next character. -/
theorem Cursor.At.here_one_within {c : Cursor} (hat : Cursor.At source c) (hc : c.rest ≠ []) :
    (c.here 1).Within source := by
  obtain ⟨ch, cs, hcs⟩ := List.exists_cons_of_ne_nil hc
  exact hat.here_within [ch] hcs (List.cons_ne_nil _ _)

/-! ## Refusals -/

section

variable {α β : Type}

/-- If the source is refused, then with an error that is `P`. -/
def Refuses (P : SyntaxError → Prop) (x : Except Failure α) : Prop :=
  ∀ e, x = .error (.rejected e) → P e

variable {P : SyntaxError → Prop}

theorem refuses_ok (a : α) : Refuses P (.ok a) := by
  intro e h
  cases h

theorem refuses_reject {problem : Problem} {span : Span} (h : P ⟨problem, span⟩) :
    Refuses P (reject problem span : Except Failure α) := by
  intro e he
  cases he
  exact h

theorem refuses_bind {x : Except Failure α} {f : α → Except Failure β} (hx : Refuses P x)
    (hf : ∀ a, x = .ok a → Refuses P (f a)) : Refuses P (x >>= f) := by
  intro e he
  obtain he | ⟨a, ha, he⟩ := bind_eq_error.mp he
  · exact hx e he
  · exact hf a ha e he

theorem refuses_map {x : Except Failure α} (f : α → β) (hx : Refuses P x) :
    Refuses P (f <$> x) := by
  cases x with
  | ok a => exact refuses_ok _
  | error e =>
    intro e' h
    cases h
    exact hx e' rfl

/-- If the source is refused, then at one of its characters. -/
def RefusesWithin (source : Text) (x : Except Failure α) : Prop :=
  ∀ e, x = .error (.rejected e) → e.span.Within source

theorem refusesWithin_ok (a : α) : RefusesWithin source (.ok a) := refuses_ok a

theorem refusesWithin_pure (a : α) : RefusesWithin source (pure a) := refuses_ok a

theorem refusesWithin_reject {problem : Problem} {span : Span} (h : span.Within source) :
    RefusesWithin source (reject problem span : Except Failure α) := refuses_reject h

theorem refusesWithin_bind {x : Except Failure α} {f : α → Except Failure β}
    (hx : RefusesWithin source x) (hf : ∀ a, x = .ok a → RefusesWithin source (f a)) :
    RefusesWithin source (x >>= f) := refuses_bind hx hf

theorem refusesWithin_map {x : Except Failure α} (f : α → β) (hx : RefusesWithin source x) :
    RefusesWithin source (f <$> x) := refuses_map f hx

end

/-- The scanner of interpolations refuses the source at one of its characters, where the opener is
such a place. -/
def NestedScan.RefusesWithin (source : Text) (nested : NestedScan) : Prop :=
  ∀ opener c, opener.Within source → Cursor.At source c →
    ManifestTree.RefusesWithin source (nested opener c)

variable {nested : NestedScan}

/-! ## Fragments -/

namespace Fragments

/-- Only a region that a quote ends can lack its end. -/
theorem Reading.unterminated {r : Reading} {c : Cursor} {opener : Span}
    (h : r.next c = .unterminated opener) : ∃ q, r.stop = .quote q opener := by
  unfold Reading.next at h
  split at h
  · cases h
  split at h
  · split at h
    · rename_i q opener' hstop
      cases h
      exact ⟨q, hstop⟩
    · cases h
  · unfold Reading.special at h
    split at h
    · cases h
    split at h
    · split at h
      · cases h
      split at h <;> cases h
    · cases h

theorem interpolation_refuses (hn : nested.RefusesWithin source) {c : Cursor} {cs : Text}
    (hat : Cursor.At source c) (hc : c.rest = .char '$' :: .char '\x7b' :: cs) :
    RefusesWithin source (interpolation nested c) := by
  unfold interpolation
  refine refusesWithin_bind ?_ fun _ _ => refusesWithin_pure _
  exact hn _ _ (hat.here_within [.char '$', .char '\x7b'] hc (List.cons_ne_nil _ _)) (hat.skip 2)

theorem scanFrom_refuses (hn : nested.Sound) (hr : nested.RefusesWithin source) {r : Reading}
    (hstop : ∀ q opener, r.stop = .quote q opener → opener.Within source) {fuel : Nat}
    {run c : Cursor} (hat : Cursor.At source c) :
    RefusesWithin source (scanFrom nested r fuel run c) := by
  induction fuel generalizing run c with
  | zero => exact nofun
  | succ fuel ih =>
    have resumed {f : Fragment} {after : Cursor} (hafter : Cursor.At source after) :
        RefusesWithin source (scanFrom nested r fuel after after >>= fun p =>
          .ok (content run c ++ f :: p.1, p.2)) :=
      refusesWithin_bind (ih hafter) fun _ _ => refusesWithin_ok _
    have hspec := @Reading.next_spec r c
    unfold scanFrom
    cases hnext : r.next c with
    | done => exact refusesWithin_ok _
    | unterminated opener =>
      obtain ⟨q, hq⟩ := Reading.unterminated hnext
      exact refusesWithin_reject (hstop q opener hq)
    | escape k value => exact resumed (hat.skip k)
    | «variable» k => exact resumed (hat.skip k)
    | interpolation =>
      simp only [hnext] at hspec
      obtain ⟨cs, hc⟩ := hspec
      refine refusesWithin_bind (interpolation_refuses hr hat hc) fun p hp => ?_
      obtain ⟨ws, ts, hread, -⟩ := interpolation_sound hn hc hp
      exact resumed (hread.at hat)
    | plain => exact ih (hat.skip 1)

end Fragments

/-! ## Heredoc bodies -/

namespace PendingHeredoc

theorem scanLines_refuses (hn : nested.Sound) (hr : nested.RefusesWithin source) {tag : HeredocTag}
    {indent : Option Nat} {chomp : Bool} {lines : List SourceLine} {resume start stop : Cursor}
    (hl : LinesTo start lines stop) (hat : Cursor.At source start)
    (hresume : Cursor.At source resume) :
    RefusesWithin source (scanLines nested tag indent chomp resume lines) := by
  induction hl generalizing resume with
  | nil => exact refusesWithin_ok _
  | @cons c d e text more _ hread _ ih =>
    have hd := hread.at hat
    unfold scanLines
    dsimp only
    generalize lineStop (chomp && more.isEmpty) ⟨c, text⟩ = lineEnd
    have hbegin := lineBegin?_spec indent resume ⟨c, text⟩ lineEnd hread
    cases hb : lineBegin? indent resume ⟨c, text⟩ lineEnd with
    | none => exact ih hd hresume
    | some b =>
      simp only [hb] at hbegin
      have hbat : Cursor.At source b := by
        rcases hbegin with rfl | ⟨ws, hws, -⟩
        · exact hresume
        · exact hws.at hat
      have hstop : ∀ q opener, Fragments.Stop.offset lineEnd = .quote q opener →
          opener.Within source := fun q opener h => by cases h
      refine refusesWithin_bind (Fragments.scanFrom_refuses hn hr hstop hbat) fun p hp => ?_
      obtain ⟨ds, hlast, -⟩ := (Fragments.scan_scanned hn hp).tiles
      exact refusesWithin_bind (ih hd (hlast.at hbat)) fun _ _ => refusesWithin_pure _

theorem resolve_refuses (hn : nested.Sound) (hr : nested.RefusesWithin source)
    {pending : PendingHeredoc} {c : Cursor} (hspan : pending.span.Within source)
    (hat : c.rest ≠ [] → Cursor.At source c) :
    RefusesWithin source (pending.resolve nested c) := by
  unfold resolve
  split
  · exact refusesWithin_reject hspan
  rename_i body line closing hsplit
  dsimp only
  generalize (if closing.trim.margin then some closing.indent else none) = indent
  refine refusesWithin_bind ?_ fun _ _ => refusesWithin_pure _
  cases (splitAtClosing?_lines hsplit).1 with
  | nil => exact refusesWithin_ok _
  | cons hnl hread hmore =>
    have hat := hat (by rw [hread.rest]; simp)
    exact scanLines_refuses hn hr (.cons hnl hread hmore) hat hat

end PendingHeredoc

theorem resolveAll_refuses (hn : nested.Sound) (hr : nested.RefusesWithin source)
    {pending : List PendingHeredoc} (hspans : ∀ p ∈ pending, p.span.Within source) {c : Cursor}
    (hat : c.rest ≠ [] → Cursor.At source c) :
    RefusesWithin source (resolveAll nested pending c) := by
  induction pending generalizing c with
  | nil => exact refusesWithin_ok _
  | cons p pending ih =>
    obtain ⟨hp, hspans⟩ := List.forall_mem_cons.mp hspans
    unfold resolveAll
    refine refusesWithin_bind (PendingHeredoc.resolve_refuses hn hr hp hat) fun b hb => ?_
    obtain ⟨cs, hpasses⟩ := PendingHeredoc.resolve_passes hb
    refine refusesWithin_bind (ih hspans (hpasses.at hat)) fun _ _ => refusesWithin_pure _

/-! ## Steps -/

namespace ScanState

variable {s s' : ScanState}

theorem readVariable_refuses (hat : Cursor.At source s.cursor) (hc : s.cursor.rest ≠ []) :
    RefusesWithin source s.readVariable := by
  unfold readVariable
  split
  · exact refusesWithin_ok _
  · exact refusesWithin_reject (hat.here_one_within hc)

theorem readString_refuses (hn : nested.Sound) (hr : nested.RefusesWithin source)
    (hat : Cursor.At source s.cursor) (hc : s.cursor.rest ≠ []) (quote : CodePoint) :
    RefusesWithin source (s.readString nested quote) := by
  have hopener := hat.here_one_within hc
  have hstop : ∀ q opener,
      (quotedReading quote (s.cursor.here 1)).stop = .quote q opener → opener.Within source := by
    intro q opener h
    have hquote :
        (quotedReading quote (s.cursor.here 1)).stop = .quote quote (s.cursor.here 1) := by
      unfold quotedReading
      split <;> rfl
    rw [hquote] at h
    cases h
    exact hopener
  unfold readString
  exact refusesWithin_bind (Fragments.scanFrom_refuses hn hr hstop (hat.skip 1))
    fun _ _ => refusesWithin_pure _

theorem readNumber_refuses (hat : Cursor.At source s.cursor) (hc : s.cursor.rest ≠ []) :
    RefusesWithin source s.readNumber := by
  unfold readNumber
  split
  · exact nofun
  rename_i k form hk
  dsimp only
  split
  · rename_i hword
    refine refusesWithin_reject ((hat.skip k).here_one_within ?_)
    intro hnil
    simp [hnil] at hword
  split
  · refine refusesWithin_reject ((Cursor.reads_skip s.cursor k).spanTo_within hat ?_)
    have hpos := number?_pos hk
    simp only [ne_eq, List.take_eq_nil_iff, hc, or_false]
    omega
  · exact refusesWithin_ok _

theorem readHeredocTag_refuses (hat : Cursor.At source s.cursor) {cs : Text}
    (hc : s.cursor.rest = .char '@' :: .char '(' :: cs) :
    RefusesWithin source s.readHeredocTag := by
  have htag : (s.cursor.here 2).Within source :=
    hat.here_within [.char '@', .char '('] hc (List.cons_ne_nil _ _)
  unfold readHeredocTag
  dsimp only
  split
  · exact refusesWithin_reject htag
  split
  · exact refusesWithin_reject htag
  refine refusesWithin_bind ?_ fun _ _ => refusesWithin_pure _
  unfold HeredocQueue.enqueue
  split
  · exact refusesWithin_ok _
  · rw [Cursor.skip_skip]
    refine refusesWithin_reject ((Cursor.reads_skip s.cursor _).spanTo_within hat ?_)
    simp [hc]

theorem readSymbol_refuses (hat : Cursor.At source s.cursor) (hc : s.cursor.rest ≠ [])
    (c : CodePoint) :
    RefusesWithin source (s.readSymbol c) := by
  unfold readSymbol
  split
  · exact refusesWithin_ok _
  · exact refusesWithin_reject (hat.here_one_within hc)

theorem readWord_refuses (hat : Cursor.At source s.cursor) (hc : s.cursor.rest ≠ [])
    (c : CodePoint) :
    RefusesWithin source (s.readWord c) := by
  unfold readWord
  split
  · exact refusesWithin_ok _
  split
  · exact refusesWithin_ok _
  split
  · exact refusesWithin_ok _
  · exact readSymbol_refuses hat hc c

theorem readToken_refuses (hn : nested.Sound) (hr : nested.RefusesWithin source)
    (hat : Cursor.At source s.cursor) {c : CodePoint} {cs : Text} (hc : s.cursor.rest = c :: cs) :
    RefusesWithin source (s.readToken nested c) := by
  have hne : s.cursor.rest ≠ [] := by simp [hc]
  unfold readToken
  split
  · exact readVariable_refuses hat hne
  split
  · exact readString_refuses hn hr hat hne c
  split
  · exact readNumber_refuses hat hne
  split
  · rename_i htag
    simp only [hc, List.getElem?_cons_succ, Bool.and_eq_true, decide_eq_true_eq] at htag
    obtain ⟨rfl, htag⟩ := htag
    cases cs with
    | nil => cases htag
    | cons d ds =>
      cases htag
      exact readHeredocTag_refuses hat hc
  · exact readWord_refuses hat hne c

/-- What a scan may yet have to point at stands in the source: the opener of its interpolation, and
the tags of the heredocs that wait. -/
structure Blames (source : Text) (s : ScanState) : Prop where
  opener : ∀ o ∈ s.opener, o.Within source
  waiting : ∀ p ∈ s.queue.waiting, p.span.Within source

theorem resolveHeredocs_refuses (hn : nested.Sound) (hr : nested.RefusesWithin source)
    (hs : s.Blames source) (hat : s.cursor.rest ≠ [] → Cursor.At source s.cursor) :
    RefusesWithin source (s.resolveHeredocs nested) := by
  unfold resolveHeredocs
  exact refusesWithin_bind (resolveAll_refuses hn hr hs.waiting hat) fun _ _ => refusesWithin_pure _

theorem blockComment_refuses (hat : Cursor.At source s.cursor) {cs : Text}
    (hc : s.cursor.rest = .char '/' :: .char '*' :: cs) : RefusesWithin source s.blockComment := by
  unfold blockComment
  split
  · exact refusesWithin_ok _
  · exact refusesWithin_reject (hat.here_within [.char '/', .char '*'] hc (List.cons_ne_nil _ _))

theorem step_refuses (hn : nested.Sound) (hr : nested.RefusesWithin source) (hs : s.Blames source)
    (hat : s.cursor.rest ≠ [] → Cursor.At source s.cursor) :
    RefusesWithin source (s.step nested) := by
  unfold step
  split
  · exact refusesWithin_ok _
  rename_i c cs hc
  have hat := hat (by simp [hc])
  split
  · refine refusesWithin_map _ ?_
    exact resolveHeredocs_refuses hn hr ⟨hs.opener, hs.waiting⟩ fun _ => hat.skip 1
  split
  · exact refusesWithin_ok _
  split
  · exact refusesWithin_ok _
  split
  · rename_i hcomment
    simp only [Bool.and_eq_true, decide_eq_true_eq] at hcomment
    obtain ⟨rfl, hstar⟩ := hcomment
    obtain ⟨cs, rfl⟩ := List.head?_eq_some_iff.mp hstar
    exact refusesWithin_map _ (blockComment_refuses hat hc)
  split
  · exact refusesWithin_ok _
  · exact refusesWithin_map _ (readToken_refuses hn hr hat hc)

/-- A step points at nothing but what it reads. -/
theorem step_blames (hn : nested.Sound) (hready : s.Ready source) (hs : s.Blames source)
    (hat : s.cursor.rest ≠ [] → Cursor.At source s.cursor)
    (h : s.step nested = .ok (some s')) : s'.Blames source := by
  obtain ⟨xs, hlays⟩ := step_lays hn hready h
  refine ⟨by rw [hlays.opener]; exact hs.opener, ?_⟩
  cases step_moves h with
  | passes => exact hs.waiting
  | reads => exact hs.waiting
  | quotes => exact hs.waiting
  | opens hc hpos henqueue =>
    rename_i inside n pending queue
    obtain ⟨tag, rfl, rfl⟩ := HeredocQueue.enqueue_ok henqueue
    refine List.forall_mem_append.mpr ⟨hs.waiting, List.forall_mem_singleton.mpr ?_⟩
    refine (Cursor.reads_skip s.cursor n).spanTo_within (hat hc) ?_
    simp only [ne_eq, List.take_eq_nil_iff, hc, or_false]
    omega
  | resolves hc hresolve =>
    unfold resolveHeredocs at hresolve
    obtain ⟨⟨bodies, cursor⟩, -, hresolve⟩ := bind_eq_ok.mp hresolve
    cases hresolve
    exact List.forall_mem_nil _

theorem finish_refuses (hn : nested.Sound) (hr : nested.RefusesWithin source)
    (hs : s.Blames source) (hat : s.cursor.rest ≠ [] → Cursor.At source s.cursor) :
    RefusesWithin source (s.finish nested) := by
  unfold finish
  split
  · rename_i o ho
    split
    · exact refusesWithin_reject (hs.opener o ho)
    · exact refusesWithin_ok _
  · exact refusesWithin_bind (resolveHeredocs_refuses hn hr hs hat) fun _ _ => refusesWithin_pure _

/-- The scan of the insides of interpolations is refused where its runs are. -/
theorem nested_refuses {fuel : Nat}
    (hrun : ∀ opener c, opener.Within source → Cursor.At source c →
      RefusesWithin source (run fuel (start (some opener) c))) :
    NestedScan.RefusesWithin source fun opener c => do
      let (tokens, s) ← run fuel (start (some opener) c)
      return (tokens, s.cursor) := by
  intro opener c hopener hc
  exact refusesWithin_bind (hrun opener c hopener hc) fun _ _ => refusesWithin_pure _

theorem run_refuses {fuel : Nat} (hready : s.Ready source) (hs : s.Blames source)
    (hat : s.cursor.rest ≠ [] → Cursor.At source s.cursor) :
    RefusesWithin source (run fuel s) := by
  induction fuel generalizing s with
  | zero => exact fun e h => by cases h
  | succ fuel ih =>
    have hn := @nested_sound fuel run_lays
    have hr := nested_refuses fun opener c hopener hc =>
      ih (start_ready source opener c)
        ⟨fun o ho => Option.some.inj ho ▸ hopener, List.forall_mem_nil _⟩ fun _ => hc
    unfold run
    dsimp only
    refine refusesWithin_bind (step_refuses hn hr hs hat) fun r hstep => ?_
    cases r with
    | none => exact finish_refuses hn hr hs hat
    | some s' =>
      obtain ⟨xs, hlays⟩ := step_lays hn hready hstep
      obtain ⟨cs, hpasses⟩ := hlays.laid.passes
      exact ih (hlays.ready hready) (step_blames hn hready hs hat hstep) (hpasses.at hat)

end ScanState

theorem Token.scan_refuses (source : Text) : RefusesWithin source (Token.scan source) := by
  unfold Token.scan
  refine refusesWithin_bind ?_ fun _ _ => refusesWithin_pure _
  exact ScanState.run_refuses (ScanState.start_ready_source source)
    ⟨nofun, List.forall_mem_nil _⟩ fun _ => Cursor.At.ofSource source

end ManifestTree
