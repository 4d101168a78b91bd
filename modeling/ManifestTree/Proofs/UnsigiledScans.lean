import ManifestTree.Proofs.NodeViews
import ManifestTree.Proofs.PlainRuns

/-!
# Scans of a variable and of a bare word in its place

A string that begins with an interpolation of a variable may have a bare word in place of the
variable.  Both are scanned alike but for this word, and all that comes after it stands one
character further left.  A word that is a keyword ends no value, so a slash after it must not open a
regular expression, and the word has to end where the variable does.
-/

namespace ManifestTree

open Text

/-! ## Places -/

/-- A place after the dollar sign of a variable, where the sign is left out. -/
def Position.unsigiled (p : Position) : Position :=
  ⟨p.offset - 1, p.line, if p.line = 1 then p.column - 1 else p.column⟩

/-- A span in the interpolation at the start of a string, where the dollar sign of the variable in
front is left out.  The sign stands at offset three on the first line. -/
def Span.unsigiled (s : Span) : Span :=
  ⟨if 3 < s.start then s.start - 1 else s.start, s.stop - 1, s.line,
    if 3 < s.start ∧ s.line = 1 then s.column - 1 else s.column⟩

/-- Spans without the dollar sign. -/
def View.unsigiled : View := ⟨Span.unsigiled, id, Position.unsigiled⟩

variable {p q : Position}

theorem Position.Counted.unsigiled_step (h : p.Counted) (hp : 4 ≤ p.offset) (c : CodePoint) :
    (p.step c).unsigiled = p.unsigiled.step c := by
  have := h.line
  have := h.column
  unfold Position.step
  split
  · have : p.line + 1 ≠ 1 := by omega
    simp only [unsigiled, if_neg this, Position.mk.injEq, and_true]
    omega
  · simp only [unsigiled, Position.mk.injEq, true_and]
    constructor
    · omega
    · split <;> omega

theorem Position.Counted.unsigiled_after (h : p.Counted) (hp : 4 ≤ p.offset) (cs : Text) :
    (p.after cs).unsigiled = p.unsigiled.after cs := by
  induction cs generalizing p with
  | nil => rfl
  | cons c cs ih =>
    rw [after_cons, ih (h.step c) (by rw [step_offset]; omega), h.unsigiled_step hp, after_cons]

theorem Position.Counted.unsigiled_between (h : p.Counted) (hp : 4 ≤ p.offset)
    (hq : 4 ≤ q.offset) :
    (Span.between p q).unsigiled = Span.between p.unsigiled q.unsigiled := by
  have := h.column
  have hstart : (3 : Int) < p.offset := by omega
  by_cases hline : p.line = 1
  · simp only [Span.unsigiled, Span.between, unsigiled, hstart, hline, Int.natCast_one, and_self,
      if_true, true_and, Span.mk.injEq]
    omega
  · have hline' : ¬ (p.line : Int) = 1 := by omega
    simp only [Span.unsigiled, Span.between, unsigiled, hstart, hline, hline', if_true,
      if_false, and_false, and_true, Span.mk.injEq]
    omega

/-- After the dollar sign all places move together. -/
theorem View.Moves.unsigiled : View.unsigiled.Moves 4 Position.unsigiled (-1) where
  join _ _ := rfl
  start {s} hs := by
    show (if 3 < s.start then s.start - 1 else s.start) = s.start + -1
    rw [if_pos (by omega)]
    rfl
  stop _ := rfl
  sized {p} hp hfirst n := by
    have heq (r : Position) : Span.sized r n = Span.between r ⟨r.offset + n, 0, 0⟩ := by
      simp [Span.sized, Span.between]
    show (Span.sized p n).unsigiled = _
    rw [heq, hp.unsigiled_between hfirst (show 4 ≤ p.offset + n by omega), heq]
    simp only [Span.between, Position.unsigiled, Span.mk.injEq, true_and, and_true]
    omega
  after hp hfirst cs := hp.unsigiled_after hfirst cs

/-- Two texts that end alike after a variable and after a bare word in its place. -/
def Fork.unsigiled (whole : Text) : Fork where
  rest := []
  other := []
  whole := whole
  places p p' := (p.Counted ∧ 4 ≤ p.offset) ∧ p' = p.unsigiled
  left := .unsigiled
  right := .plain

theorem Fork.unsigiled_lawful (whole : Text) : (Fork.unsigiled whole).Lawful where
  step := by
    rintro p _ ⟨⟨hp, hfirst⟩, rfl⟩ c
    refine ⟨⟨hp.step c, ?_⟩, (hp.unsigiled_step hfirst c).symm⟩
    rw [Position.step_offset]
    omega
  span := by
    rintro p _ q _ ⟨⟨hp, hfirst⟩, rfl⟩ ⟨⟨-, hq⟩, rfl⟩
    exact hp.unsigiled_between hfirst hq
  cuts := .refl []
  regex _ h := h
  lines h := h

/-! ## Before the next token -/

namespace Lexeme

/-- Where a text goes on in front of a token. -/
inductive Gap where
  | blanks | lineComment | blockComment

/-- What is left of a text after the blanks, line ends and comments in front of it. -/
def afterGap : Gap → Text → Text
  | .blanks, .char '#' :: cs => afterGap .lineComment cs
  | .blanks, .char '/' :: .char '*' :: cs => afterGap .blockComment cs
  | .blanks, c :: cs =>
    if c = '\n' || c = ' ' || c = '\t' || c = '\r' then afterGap .blanks cs else c :: cs
  | .lineComment, .char '\n' :: cs => afterGap .blanks cs
  | .lineComment, _ :: cs => afterGap .lineComment cs
  | .blockComment, .char '*' :: .char '/' :: cs => afterGap .blanks cs
  | .blockComment, _ :: cs => afterGap .blockComment cs
  | _, [] => []

theorem afterGap_blank {c : CodePoint} (hc : ScanState.IsGap c) (cs : Text) :
    afterGap .blanks (c :: cs) = afterGap .blanks cs := by
  rcases hc with rfl | rfl | rfl | rfl <;> simp [afterGap]

theorem afterGap_lineComment (cs : Text) :
    afterGap .lineComment cs = afterGap .blanks (cs.dropWhile (· ≠ .char '\n')) := by
  induction cs with
  | nil => simp [afterGap]
  | cons c cs ih =>
    by_cases hc : c = '\n'
    · simp [hc, afterGap]
    · simp [hc, afterGap, ih]

theorem afterGap_blockComment {cs : Text} {n : Nat}
    (h : ScanState.blockLength? cs = some n) :
    afterGap .blockComment cs = afterGap .blanks (cs.drop n) := by
  induction cs using ScanState.blockLength?.induct generalizing n with
  | case1 cs =>
    cases h
    simp [afterGap]
  | case2 c cs hno ih =>
    rw [ScanState.blockLength?.eq_2 _ _ hno] at h
    obtain ⟨m, hm, rfl⟩ := Option.map_eq_some_iff.mp h
    rw [List.drop_succ_cons, ← ih hm, afterGap.eq_7 _ _ hno]
  | case3 => cases h

theorem afterGap_token {c : CodePoint} {cs : Text} (hc : ¬ ScanState.IsGap c) (hhash : c ≠ '#')
    (hopen : ¬ (c = '/' ∧ cs.head? = some (.char '*'))) : afterGap .blanks (c :: cs) = c :: cs := by
  have hblank : ¬ (c = '\n' || c = ' ' || c = '\t' || c = '\r') = true := by
    simpa [ScanState.IsGap, or_assoc] using hc
  rw [afterGap.eq_3 _ _ (fun h => hhash h) fun ds h hds => hopen ⟨h, by rw [hds]; rfl⟩,
    if_neg hblank]

end Lexeme

namespace ScanState

variable {nested : NestedScan} {s r : ScanState} {l : TokenKind} {c : CodePoint} {cs : Text}

/-- The state as if a token of another kind had been read last. -/
def withLast (s : ScanState) (l : TokenKind) : ScanState := { s with last := some l }

/-- No regular expression is read after a token that ends a value. -/
theorem regexLength?_withLast (hl : l.endsValue) : (s.withLast l).regexLength? = none :=
  if_pos hl

/-- Where no regular expression is read, what was read last makes no difference to a token. -/
theorem readToken_withLast (hl : l.endsValue) (hregex : Lexeme.regexLength? s.cursor.rest = none)
    (c : CodePoint) : (s.withLast l).readToken nested c = s.readToken nested c := by
  have hnone : s.regexLength? = none := by
    unfold regexLength?
    rw [hregex, ite_self]
  have hword : (s.withLast l).readWord c = s.readWord c := by
    unfold readWord
    rw [hnone, regexLength?_withLast hl]
    rfl
  unfold readToken
  rw [hword]
  rfl

/-- Where a slash before the next token opens no regular expression, a step passes what stands
before that token or reads it, whatever was read last. -/
theorem step_withLast (hl : l.endsValue) (hidle : s.queue.waiting = [])
    (hslash : Lexeme.regexLength? (Lexeme.afterGap .blanks s.cursor.rest) = none) :
    (s.withLast l).step nested = s.step nested ∨
      ∃ r, s.step nested = .ok (some r) ∧ (s.withLast l).step nested = .ok (some (r.withLast l)) ∧
        r.opener = s.opener ∧ r.queue = s.queue ∧
        Lexeme.regexLength? (Lexeme.afterGap .blanks r.cursor.rest) = none := by
  cases hrest : s.cursor.rest with
  | nil =>
    left
    have hstop (s : ScanState) (h : s.cursor.rest = []) : s.step nested = .ok none := by
      unfold step
      rw [h]
    exact (hstop (s.withLast l) hrest).trans (hstop s hrest).symm
  | cons c cs =>
    rw [hrest] at hslash
    by_cases hgap : IsGap c
    · rw [Lexeme.afterGap_blank hgap] at hslash
      refine .inr ⟨s.blank, step_gap hrest hgap hidle, step_gap hrest hgap hidle, rfl, rfl, ?_⟩
      simpa [blank, Cursor.skip, hrest] using hslash
    have hline : c ≠ '\n' := fun h => hgap (.inl h)
    have hspace : ¬ (c = ' ' || c = '\t' || c = '\r') = true := by
      simp only [IsGap, not_or] at hgap
      simp [hgap]
    unfold step
    rw [show (s.withLast l).cursor.rest = c :: cs from hrest, hrest]
    dsimp only
    rw [if_neg hline, if_neg hspace, if_neg hline, if_neg hspace]
    by_cases hhash : c = '#'
    · subst hhash
      rw [if_pos rfl, if_pos rfl]
      refine .inr ⟨s.lineComment, rfl, rfl, rfl, rfl, ?_⟩
      have hline : s.cursor.rest.dropWhile (· ≠ .char '\n') = s.lineComment.cursor.rest :=
        List.append_cancel_left (List.takeWhile_append_dropWhile.trans
          (Cursor.reads_skipWhile s.cursor (· ≠ '\n')).rest)
      rw [← hline, hrest]
      show Lexeme.regexLength? (Lexeme.afterGap .blanks (cs.dropWhile (· ≠ .char '\n'))) = none
      rwa [← Lexeme.afterGap_lineComment]
    rw [if_neg hhash, if_neg hhash]
    by_cases hopen : (c = '/' && cs.head? = some (.char '*')) = true
    · rw [if_pos hopen, if_pos hopen]
      simp only [Bool.and_eq_true, decide_eq_true_eq] at hopen
      obtain ⟨rfl, hstar⟩ := hopen
      obtain ⟨ds, rfl⟩ := List.head?_eq_some_iff.mp hstar
      have hinside : s.cursor.rest.drop 2 = ds := by rw [hrest]; rfl
      unfold blockComment
      rw [show (s.withLast l).cursor = s.cursor from rfl, hinside]
      cases hend : blockLength? ds with
      | none => exact .inl rfl
      | some n =>
        refine .inr ⟨s.emitComment (s.cursor.skip (n + 2)), rfl, rfl, rfl, rfl, ?_⟩
        have hafter : (s.cursor.skip (n + 2)).rest = ds.drop n := by
          rw [Cursor.skip, Nat.add_comm, ← List.drop_drop, hinside]
        show Lexeme.regexLength? (Lexeme.afterGap .blanks (s.cursor.skip (n + 2)).rest) = none
        rwa [hafter, ← Lexeme.afterGap_blockComment hend]
    rw [if_neg hopen, if_neg hopen]
    left
    rw [Lexeme.afterGap_token hgap hhash (by simpa using hopen)] at hslash
    rw [readToken_withLast hl (by rwa [hrest])]
    rfl

/-- Where a slash before the next token opens no regular expression, a scan within an interpolation
goes on as after a value. -/
theorem run_withLast {fuel : Nat} {ts : List Token} (hl : l.endsValue) (ho : s.opener.isSome)
    (hidle : s.queue.waiting = [])
    (hslash : Lexeme.regexLength? (Lexeme.afterGap .blanks s.cursor.rest) = none)
    (h : run fuel (s.withLast l) = .ok (ts, r)) :
    ∃ r', run fuel s = .ok (ts, r') ∧ r'.cursor = r.cursor := by
  induction fuel generalizing s with
  | zero => cases h
  | succ fuel ih =>
    rcases step_withLast hl hidle hslash with hsame | ⟨s₂, hstep, hstep', ho₂, hq₂, hslash₂⟩
    · rcases run_cases h with ⟨s₂, hstep, h⟩ | ⟨hstep, hfinish⟩
      · rw [hsame] at hstep
        exact ⟨r, (run_of_step hstep).trans h, rfl⟩
      · rw [hsame] at hstep
        obtain ⟨o, ho⟩ := Option.isSome_iff_exists.mp ho
        rw [finish, show (s.withLast l).opener = some o from ho] at hfinish
        dsimp only at hfinish
        split at hfinish
        · cases hfinish
        rename_i hend
        cases hfinish
        refine ⟨s, ?_, rfl⟩
        rw [run_of_stop hstep, finish, ho]
        exact if_neg hend
    · rw [run_of_step hstep'] at h
      obtain ⟨r', hr', hcursor⟩ := ih (by rwa [ho₂]) (by rwa [hq₂]) hslash₂ h
      exact ⟨r', (run_of_step hstep).trans hr', hcursor⟩

/-! ## The word in front -/

theorem step_variable {n : Nat} (hc : s.cursor.rest = .char '$' :: cs)
    (hn : Lexeme.variableLength? s.cursor.rest = some n) :
    s.step nested = .ok (some (s.emit .variable (s.cursor.skip n) .plain)) := by
  have hbrace : s.atClosingBrace '$' = false := by simp [atClosingBrace]
  have hread : s.readToken nested '$' = .ok (s.emit .variable (s.cursor.skip n) .plain) := by
    show s.readVariable = _
    rw [readVariable, hn]
  unfold step
  rw [hc]
  show (if s.atClosingBrace '$' = true then Except.ok none
    else some <$> s.readToken nested '$') = _
  rw [hbrace, hread]
  rfl

/-- A name begins in ASCII, with no sign that another token begins with. -/
theorem nameLength?_head {n : Nat} (h : Lexeme.nameLength? (c :: cs) = some n) :
    c ∉ ([' ', '\n', '\t', '\r', '#', '/', '\x7d', '$', doubleQuote, apostrophe, '@'] : Text) ∧
      isDigit c = false := by
  have hbegin : isAsciiLower c ∨ c = '_' ∨ c = ':' := by
    simp only [Lexeme.nameLength?, Lexeme.scopedLength?] at h
    split at h
    · exact .inr (.inr (List.cons.inj ‹_›).1)
    · rename_i h'
      obtain ⟨rfl, -⟩ := List.cons.inj h'
      split at h
      · rename_i hc
        exact (Bool.or_eq_true _ _ ▸ hc).imp_right fun h => .inl (of_decide_eq_true h)
      · cases h
    · cases h
  have hlow : c.val < 0x80 ∧ isAsciiDigit c = false := by
    rcases hbegin with h | rfl | rfl
    · simp only [isAsciiLower, Bool.and_eq_true, decide_eq_true_eq] at h
      have hfirst : 'a'.toNat ≤ c.val := h.1
      have hlast : c.val ≤ 'z'.toNat := h.2
      have ha : 'a'.toNat = 97 := rfl
      have hz : 'z'.toNat = 122 := rfl
      refine ⟨by omega, ?_⟩
      rw [isAsciiDigit, Bool.and_eq_false_iff]
      refine .inr (decide_eq_false fun h => ?_)
      have hnine : c.val ≤ '9'.toNat := h
      have h9 : '9'.toNat = 57 := rfl
      omega
    · decide
    · decide
  constructor
  · simp only [List.mem_cons, List.not_mem_nil, or_false, not_or]
    refine ⟨?_, ?_, ?_, ?_, ?_, ?_, ?_, ?_, ?_, ?_, ?_⟩ <;>
      (rintro rfl; revert hbegin; decide)
  · have hsign : inRanges digitSignRanges c.val = false := by
      simp only [inRanges, digitSignRanges, List.any_cons, List.any_nil, Bool.or_eq_false_iff]
      simp
      omega
    simp [isDigit, isDecimal, decimalValue?, hlow, hsign]

/-- A name or a keyword is read. -/
theorem step_name {n : Nat} (hn : Lexeme.nameLength? s.cursor.rest = some n) :
    s.step nested = .ok (some (s.emit (TokenKind.ofName (s.cursor.rest.take n))
      (s.cursor.skip n) .plain)) := by
  obtain ⟨c, cs, hc⟩ : ∃ c cs, s.cursor.rest = c :: cs := by
    refine List.exists_cons_of_ne_nil fun hnil => ?_
    rw [hnil] at hn
    cases hn
  obtain ⟨hsigns, hdigit⟩ := nameLength?_head (hc ▸ hn)
  simp only [List.mem_cons, List.not_mem_nil, or_false, not_or] at hsigns
  have hregex : s.regexLength? = none := by
    unfold regexLength?
    rw [hc]
    split
    · rfl
    · unfold Lexeme.regexLength?
      split
      · rename_i h
        exact absurd (List.cons.inj h).1 hsigns.2.2.2.2.2.1
      · rfl
  have hread : s.readToken nested c = .ok (s.emit (TokenKind.ofName (s.cursor.rest.take n))
      (s.cursor.skip n) .plain) := by
    have hword : s.readWord c = .ok (s.emit (TokenKind.ofName (s.cursor.rest.take n))
        (s.cursor.skip n) .plain) := by rw [readWord, hregex, hn]
    simpa [readToken, hsigns, hdigit] using hword
  unfold step
  rw [hc] at hread ⊢
  simp [hsigns, atClosingBrace, hread]

theorem depthAfter_ofName (depth : Nat) (word : Text) :
    depthAfter depth (TokenKind.ofName word) = depth := by
  unfold TokenKind.ofName
  split <;> rfl

/-- The scan of an interpolation at the start of a string, where it has read a first token. -/
def pastFirst (o : Span) (text : Text) (kind : TokenKind) (n : Nat) : ScanState :=
  let s := start (some o) ⟨⟨3, 1, 4⟩, text⟩
  s.emit kind (s.cursor.skip n) .plain

end ScanState

/-- A variable at the start of an interpolation that a string begins with. -/
def Token.sigiled (word : Text) : Token :=
  .mk .variable (.char '$' :: word) (Span.sized ⟨3, 1, 4⟩ (word.length + 1)) .plain

/-- A word there. -/
def Token.unsigiled (word : Text) : Token :=
  .mk (TokenKind.ofName word) word (Span.sized ⟨3, 1, 4⟩ word.length) .plain

namespace ScanState

variable {o o' : Span} {text whole : Text} {n : Nat}

theorem pastFirst_tokens (o : Span) (kind : TokenKind) (hn : n ≤ text.length) :
    (pastFirst o text kind n).tokens =
      [.mk kind (text.take n) (Span.sized ⟨3, 1, 4⟩ n) .plain] := emit_skip kind hn

/-- After the variable and after the word the scans have the same before them. -/
theorem pastFirst_beside (o o' : Span) (hl : l.endsValue)
    (hat : Cursor.At whole ⟨⟨3, 1, 4⟩, text⟩) :
    Beside (.unsigiled whole) (pastFirst o (.char '$' :: text) .variable (n + 1))
      ((pastFirst o' text (TokenKind.ofName (text.take n)) n).withLast l) (text.drop n)
      (pastFirst o (.char '$' :: text) .variable (n + 1))
      ((pastFirst o' text (TokenKind.ofName (text.take n)) n).withLast l) where
  cursor :=
    { rest := (List.append_nil _).symm
      other := (List.append_nil _).symm
      pos := by
        have hfirst : (⟨4, 1, 5⟩ : Position).Counted := ⟨by decide, by decide⟩
        refine ⟨⟨hfirst.after (text.take n), ?_⟩,
          (hfirst.unsigiled_after (Nat.le_refl 4) (text.take n)).symm⟩
        show 4 ≤ ((⟨4, 1, 5⟩ : Position).after (text.take n)).offset
        rw [Position.after_offset]
        exact Nat.le_add_right 4 _
      placed := hat.skip n }
  last := hl
  closes _ := ⟨rfl, depthAfter_ofName 0 _⟩
  tokens := .refl _ _ _ _
  comments := .refl _ _ _ _
  keeps := ⟨⟨rfl, rfl, rfl⟩, ⟨rfl, rfl, rfl⟩⟩

/-- The inside of an interpolation with a variable in front, and with a word in its place that ends
where the variable does and after which no regular expression begins. -/
theorem nestedRun_unsigiled {fuel m : Nat} {ts : List Token} {d : Cursor} (o' : Span)
    (hname : Lexeme.nameLength? text = some n)
    (hvariable : Lexeme.variableLength? (.char '$' :: text) = some (n + 1))
    (hword : (TokenKind.ofName (text.take n)).endsValue ∨
      Lexeme.regexLength? (Lexeme.afterGap .blanks (text.drop n)) = none)
    (hat : Cursor.At whole ⟨⟨3, 1, 4⟩, text⟩) (hm : text.length < m)
    (h : nestedRun fuel o ⟨⟨3, 1, 4⟩, .char '$' :: text⟩ = .ok (ts, d)) :
    ∃ us q d' v, ts = Token.sigiled (text.take n) :: (us ++ [Token.endAt q]) ∧
      nestedRun m o' ⟨⟨3, 1, 4⟩, text⟩ = .ok (Token.unsigiled (text.take n) ::
        (us ++ [Token.endAt q]).map (Token.seen .unsigiled), d') ∧
      d.Beside (.unsigiled whole) v d' := by
  have hk := Fork.unsigiled_lawful whole
  obtain ⟨inside, -, hhead, -⟩ := nestedRun_sound fuel _ _ _ _ h
  obtain ⟨⟨ts, r⟩, hrun, hok⟩ := bind_eq_ok.mp h
  cases hok
  obtain ⟨f, rfl⟩ : ∃ f, fuel = f + 1 := by
    cases fuel with
    | zero => cases hrun
    | succ f => exact ⟨f, rfl⟩
  obtain ⟨m, rfl⟩ := Nat.exists_eq_succ_of_ne_zero (Nat.ne_zero_of_lt hm)
  have hlength : n ≤ text.length := Lexeme.nameLength?_local.within hname
  have hpos : 0 < n := scopedLength?_pos hname
  rw [run_of_step (step_variable rfl hvariable)] at hrun
  have hend (l : TokenKind) : Ends (.unsigiled whole)
      ((pastFirst o' text (TokenKind.ofName (text.take n)) n).withLast l) r.cursor := by
    obtain ⟨rest, hrest⟩ := List.head?_eq_some_iff.mp hhead
    unfold Ends
    refine Eq.mpr (if_pos rfl) ?_
    rw [hrest]
    exact Nat.succ_pos _
  have hfuel : (text.drop n).length < m := by
    rw [List.length_drop]
    omega
  have goes {l : TokenKind} (hl : l.endsValue) := run_beside hk (pastFirst_beside o o' hl hat)
    ⟨rfl, rfl, rfl⟩ rfl hfuel hrun (hend l)
  obtain ⟨r', r'', v, rfl, hrun', hcursor, hgrown, hbeside⟩ : ∃ (r' r'' : ScanState) (v : _),
      ts = r.tokens.reverse ++ [Token.endAt r.cursor.pos] ∧
      run m (pastFirst o' text (TokenKind.ofName (text.take n)) n) =
        .ok (r''.tokens.reverse ++ [Token.endAt r''.cursor.pos], r') ∧ r'.cursor = r''.cursor ∧
      Grown (Token.seen .unsigiled) (Token.seen .plain)
        (pastFirst o (.char '$' :: text) .variable (n + 1)).tokens
        (pastFirst o' text (TokenKind.ofName (text.take n)) n).tokens r.tokens r''.tokens ∧
      r.cursor.Beside (.unsigiled whole) v r''.cursor := by
    rcases hword with hvalue | hslash
    · obtain ⟨r', v, hts, hok, hb⟩ := goes hvalue
      exact ⟨r', r', v, hts, hok, rfl, hb.tokens, hb.cursor⟩
    · -- The scan after a keyword goes on as after a value.
      obtain ⟨r'', v, hts, hok, hb⟩ := goes (l := .name) rfl
      obtain ⟨r', hok', hcursor⟩ := run_withLast (l := .name) rfl rfl rfl hslash hok
      exact ⟨r', r'', v, hts, hok', hcursor, hb.tokens, hb.cursor⟩
  obtain ⟨new, new', hnew, hnew', hmap⟩ := hgrown
  rw [Token.seen_plain_eq_id, List.map_id] at hmap
  rw [pastFirst_tokens _ _ (Nat.succ_le_succ hlength)] at hnew
  rw [pastFirst_tokens _ _ hlength] at hnew'
  have hplace : r''.cursor.pos = r.cursor.pos.unsigiled := hbeside.pos.2
  have hlater : Token.endAt r''.cursor.pos = (Token.endAt r.cursor.pos).seen .unsigiled := by
    obtain ⟨⟨hcounted, hfirst⟩, hplace⟩ := hbeside.pos
    rw [hplace, Token.endAt, Token.endAt, ← View.Moves.unsigiled.sized hcounted hfirst]
    rfl
  have hlen : (text.take n).length = n := List.length_take_of_le hlength
  refine ⟨new.reverse, r.cursor.pos, r''.cursor, v, ?_, ?_, hbeside⟩
  · rw [hnew, List.reverse_append, Token.sigiled, hlen]
    rfl
  · refine bind_eq_ok.mpr ⟨_, (run_of_step (step_name hname)).trans hrun', ?_⟩
    rw [hnew', hmap, hlater, List.reverse_append, Token.unsigiled, hlen, List.map_append,
      List.map_reverse, ← hcursor]
    rfl

end ScanState

/-! ## Strings that hold one interpolation -/

namespace Fragments

variable {nested : NestedScan} {r : Reading} {quote : CodePoint} {o : Span} {c last : Cursor}
  {cs : Text} {f : Fragment}

/-- An interpolation that stands alone between quotes is all that is read there. -/
theorem scan_alone (hn : nested.Sound) (hstop : r.stop = .quote quote o)
    (hinterpolate : r.interpolate = true) (hquote : quote ≠ '$')
    (hc : c.rest = .char '$' :: .char '\x7b' :: cs) :
    scan nested r c = .ok ([f], last) ↔
      interpolation nested c = .ok (f, last) ∧ last.rest.head? = some quote := by
  have hnext : r.next c = .interpolation := by
    have hgoes : r.stop.holds c = false := by
      simpa [hstop, Stop.holds, hc] using hquote.symm
    have hend : c.atEnd = false := by simp [Cursor.atEnd, hc]
    simp [Reading.next, hgoes, hend, Reading.special, hc, Lexeme.escape?, hinterpolate]
  have hscan : scan nested r c = (interpolation nested c >>= fun p =>
      scanFrom nested r c.rest.length p.2 p.2 >>= fun q => .ok (p.1 :: q.1, q.2)) := by
    have hempty : content c c = [] := if_pos (Nat.le_refl _)
    rw [scan, scanFrom, hnext]
    simp only [hempty, List.nil_append]
    rfl
  rw [hscan]
  constructor
  · intro h
    obtain ⟨⟨g, after⟩, hg, h⟩ := bind_eq_ok.mp h
    obtain ⟨⟨more, stop⟩, hmore, h⟩ := bind_eq_ok.mp h
    cases h
    have hscanned := scanFrom_scanned hn (.refl after) hmore
    obtain ⟨ds, hds, htiles⟩ := hscanned.tiles
    obtain rfl : ds = [] := by
      cases htiles
      rfl
    obtain rfl : after = stop := (Cursor.Reads.refl after).unique hds
    refine ⟨hg, ?_⟩
    rcases hscanned.stops with hholds | ⟨-, n, hn⟩
    · simpa [hstop, Stop.holds] using hholds
    · rw [hstop] at hn
      cases hn
  · rintro ⟨hf, hhead⟩
    refine bind_eq_ok.mpr ⟨_, hf, bind_eq_ok.mpr ⟨([], last), ?_, rfl⟩⟩
    have hdone : r.next last = .done := by
      rw [Reading.next, hstop, if_pos (by simpa [Stop.holds] using hhead)]
    obtain ⟨n, hn⟩ : ∃ n, c.rest.length = n + 1 := ⟨_, by rw [hc]; rfl⟩
    rw [hn, scanFrom, hdone]
    have hempty : content last last = [] := if_pos (Nat.le_refl _)
    simp only [hempty]

end Fragments

namespace ScanState

/-- The start of a source that begins with a string and that with an interpolation. -/
def opening (inner : Text) : ScanState :=
  start none (Cursor.ofSource (doubleQuote :: .char '$' :: .char '\x7b' :: inner))

/-- The state after that string, where the interpolation is all that it holds. -/
def pastString (inner : Text) (ts : List Token) (brace : Cursor) : ScanState :=
  let s := opening inner
  let open₁ := s.cursor.skip 1
  let after := brace.skip 1
  s.emit .string (after.skip 1)
    (.fragments [.mk (open₁.upTo after) (open₁.spanTo after) (.interpolation ts)])

variable {nested : NestedScan} {r : ScanState} {inner : Text}

/-- A step reads such a string, which holds one interpolation. -/
theorem step_opening (hn : nested.Sound) (inner : Text) :
    ((opening inner).step nested = .ok (some r) ∧ ∃ t f, r.tokens = [t] ∧ t.fragments = [f]) ↔
      ∃ ts brace rest, nested (Span.sized ⟨1, 1, 2⟩ 2) ⟨⟨3, 1, 4⟩, inner⟩ = .ok (ts, brace) ∧
        brace.rest = .char '\x7d' :: doubleQuote :: rest ∧ r = pastString inner ts brace := by
  have hstep : (opening inner).step nested =
      some <$> (opening inner).readString nested doubleQuote := rfl
  have halone {f : Fragment} {last : Cursor} :
      Fragments.scan nested (quotedReading doubleQuote ((opening inner).cursor.here 1))
          ((opening inner).cursor.skip 1) = .ok ([f], last) ↔
        Fragments.interpolation nested ((opening inner).cursor.skip 1) = .ok (f, last) ∧
          last.rest.head? = some doubleQuote :=
    Fragments.scan_alone hn rfl rfl (by decide) rfl
  rw [hstep]
  constructor
  · rintro ⟨h, t, f, htokens, hf⟩
    obtain ⟨⟨fs, close⟩, hscan, hr⟩ := bind_eq_ok.mp (some_map_eq_ok.mp h)
    cases hr
    obtain rfl : fs = [f] := by
      rw [← hf, ← List.head_eq_of_cons_eq htokens]
      rfl
    obtain ⟨hinterpolation, hclose⟩ := halone.mp hscan
    obtain ⟨⟨ts, brace⟩, hts, hinterpolation⟩ := bind_eq_ok.mp hinterpolation
    cases hinterpolation
    obtain ⟨inside, -, hhead, -⟩ := hn _ _ _ _ hts
    obtain ⟨cs, hbrace⟩ := List.head?_eq_some_iff.mp hhead
    obtain ⟨rest, hrest⟩ := List.head?_eq_some_iff.mp hclose
    refine ⟨ts, brace, rest, hts, ?_, rfl⟩
    rw [hbrace, ← hrest, Cursor.skip, hbrace]
    rfl
  · rintro ⟨ts, brace, rest, hts, hrest, rfl⟩
    refine ⟨some_map_eq_ok.mpr ?_, _, _, rfl, rfl⟩
    refine bind_eq_ok.mpr ⟨_, halone.mpr ⟨bind_eq_ok.mpr ⟨_, hts, rfl⟩, ?_⟩, rfl⟩
    rw [Cursor.skip, hrest]
    rfl

/-- The string that was read. -/
theorem pastString_token (ts : List Token) {brace : Cursor} {cs rest : Text}
    (hreads : Cursor.Reads ⟨⟨3, 1, 4⟩, inner⟩ cs brace)
    (hbrace : brace.rest = .char '\x7d' :: doubleQuote :: rest) :
    ∃ t f, (pastString inner ts brace).tokens = [t] ∧ t.kind = .string ∧
      t.text.head? = some doubleQuote ∧ t.fragments = [f] ∧ f.piece = .interpolation ts := by
  refine ⟨_, _, rfl, rfl, ?_, rfl, rfl⟩
  have hopen : (opening inner).cursor.Reads [doubleQuote, '$', '\x7b'] ⟨⟨3, 1, 4⟩, inner⟩ :=
    ⟨rfl, rfl⟩
  have hclose : (brace.skip 1).rest = doubleQuote :: rest := by
    rw [Cursor.skip, hbrace]
    rfl
  have hwhole := (hopen.trans hreads).trans
    ((Cursor.reads_skip_one hbrace).trans (Cursor.reads_skip_one hclose))
  show ((opening inner).cursor.upTo ((brace.skip 1).skip 1)).head? = _
  rw [hwhole.upTo_eq]
  rfl

/-- A scan that finds such a string and no other token reads the interpolation, and then blanks and
comments. -/
theorem scan_opening {t : Token} {f : Fragment} {q : Position} {comments : List Token}
    (h : Token.scan (doubleQuote :: .char '$' :: .char '\x7b' :: inner) =
        .ok ([t, Token.endAt q], comments))
    (hk : t.kind = .string) (hf : t.fragments = [f]) :
    ∃ fuel ts brace rest r, nestedRun fuel (Span.sized ⟨1, 1, 2⟩ 2) ⟨⟨3, 1, 4⟩, inner⟩ =
        .ok (ts, brace) ∧ brace.rest = .char '\x7d' :: doubleQuote :: rest ∧
      (pastString inner ts brace).PlainRun [t, Token.endAt q] r ∧
      (pastString inner ts brace).tokens = [t] ∧ r.tokens = [t] := by
  obtain ⟨⟨_, r⟩, hrun, hresult⟩ := bind_eq_ok.mp h
  obtain ⟨rfl, -⟩ := Prod.mk.inj (Except.ok.inj hresult)
  have hplain : ∀ u ∈ [t, Token.endAt q], u.kind ≠ .heredoc :=
    List.forall_mem_cons.mpr ⟨by rw [hk]; decide,
      List.forall_mem_singleton.mpr fun hend => by cases hend⟩
  have hrow := run_plain (start_plain _) (start_ready_source _) hrun hplain
  cases hrow with
  | blank hc hgap =>
    obtain ⟨rfl, -⟩ := List.cons.inj hc
    exact absurd hgap (by unfold IsGap; decide)
  | comment _ hc =>
    obtain ⟨cs, after, hr, hcomment, -⟩ := hc
    have hrest := hr.rest
    rcases hcomment with ⟨body, rfl, -⟩ | ⟨body, rfl, -⟩ <;> cases hrest
  | @token _ s₂ _ _ u fuel hstep ht hrow =>
    obtain ⟨new, hnew, hts⟩ := hrow.found
    -- The string is the only token that is read.
    obtain ⟨rfl, rfl⟩ : t = u ∧ new = [] := by
      rw [hnew, ht.tokens] at hts
      have hlength := congrArg List.length hts
      simp only [List.length_append, List.length_reverse, List.length_cons] at hlength
      obtain rfl : new = [] := List.length_eq_zero_iff.mp (by omega)
      exact ⟨List.head_eq_of_cons_eq hts, rfl⟩
    obtain ⟨ts, brace, rest, hts, hbrace, rfl⟩ := (step_opening (nestedRun_sound fuel) inner).mp
      ⟨hstep, t, f, ht.tokens, hf⟩
    exact ⟨fuel, ts, brace, rest, r, hts, hbrace, hrow, ht.tokens, hnew.trans ht.tokens⟩

/-- After the string both scans have the same before them. -/
theorem pastString_beside {k : Fork} (hk : k.Lawful) (inner inner' : Text)
    (ts ts' : List Token) {brace brace' : Cursor} {rest : Text}
    (h : brace.Beside k (.char '\x7d' :: doubleQuote :: rest) brace') :
    Beside k (pastString inner ts brace) (pastString inner' ts' brace') rest
      (pastString inner ts brace) (pastString inner' ts' brace') where
  cursor := (h.skip hk (n := 1) (Nat.succ_pos _)).skip hk (n := 1) (Nat.succ_pos _)
  last := rfl
  closes ho := by cases ho
  tokens := .refl _ _ _ _
  comments := .refl _ _ _ _
  keeps := ⟨⟨rfl, rfl, rfl⟩, ⟨rfl, rfl, rfl⟩⟩

end ScanState

/-- A string of one interpolation with a variable in front, and with a word in its place that ends
where the variable does and after which no regular expression begins. -/
theorem Token.scan_unsigiled {text : Text} {n : Nat} {t : Token} {f : Fragment} {q : Position}
    {ts comments : List Token} (hname : Lexeme.nameLength? text = some n)
    (hvariable : Lexeme.variableLength? (.char '$' :: text) = some (n + 1))
    (hword : (TokenKind.ofName (text.take n)).endsValue ∨
      Lexeme.regexLength? (Lexeme.afterGap .blanks (text.drop n)) = none)
    (h : Token.scan (doubleQuote :: .char '$' :: .char '\x7b' :: .char '$' :: text) =
      .ok ([t, Token.endAt q], comments))
    (hk : t.kind = .string) (hf : t.fragments = [f]) (hp : f.piece = .interpolation ts) :
    t.text.head? = some doubleQuote ∧
      ∃ us p t' f' q' comments', ts = Token.sigiled (text.take n) :: (us ++ [Token.endAt p]) ∧
        Token.scan (doubleQuote :: .char '$' :: .char '\x7b' :: text) =
          .ok ([t', Token.endAt q'], comments') ∧
        t'.kind = .string ∧ t'.text.head? = some doubleQuote ∧ t'.fragments = [f'] ∧
        f'.piece = .interpolation (Token.unsigiled (text.take n) ::
          (us ++ [Token.endAt p]).map (Token.seen .unsigiled)) := by
  obtain ⟨fuel, ts', brace, rest, r, hts', hbrace, hrow, ht, hr⟩ := ScanState.scan_opening h hk hf
  obtain ⟨inside, hinside, -⟩ := ScanState.nestedRun_sound _ _ _ _ _ hts'
  obtain ⟨u, g, hu, -, hhead, hg, hpiece⟩ := ScanState.pastString_token _ hinside hbrace
  obtain rfl : u = t := List.head_eq_of_cons_eq (hu.symm.trans ht)
  obtain rfl : g = f := List.head_eq_of_cons_eq (hg.symm.trans hf)
  obtain rfl : ts' = ts := Piece.interpolation.inj (hpiece.symm.trans hp)
  refine ⟨hhead, ?_⟩
  generalize hsource : doubleQuote :: .char '$' :: .char '\x7b' :: text = source
  have hat : Cursor.At source ⟨⟨3, 1, 4⟩, text⟩ :=
    ⟨[doubleQuote, '$', '\x7b'], hsource.symm, rfl⟩
  have hlength : source.length = text.length + 3 := by
    rw [← hsource]
    rfl
  obtain ⟨us, p, brace', v, rfl, hok, hbeside⟩ := ScanState.nestedRun_unsigiled
    (Span.sized ⟨1, 1, 2⟩ 2) hname hvariable hword hat (m := source.length) (by omega) hts'
  obtain rfl : v = .char '\x7d' :: doubleQuote :: rest := by
    rw [← hbrace, hbeside.rest]
    exact (List.append_nil v).symm
  have hbrace' : brace'.rest = .char '\x7d' :: doubleQuote :: rest :=
    hbeside.other.trans (List.append_nil _)
  obtain ⟨inside', hinside', -⟩ := ScanState.nestedRun_sound _ _ _ _ _ hok
  generalize hts : Token.unsigiled (text.take n) :: (us ++ [Token.endAt p]).map
    (Token.seen .unsigiled) = ts at hok
  obtain ⟨t', f', hu', hk', hhead', hf', hp'⟩ := ScanState.pastString_token ts hinside' hbrace'
  obtain ⟨hstep', -⟩ := (ScanState.step_opening (ScanState.nestedRun_sound _) text).mpr
    ⟨ts, brace', rest, hok, hbrace', rfl⟩
  have hlawful := Fork.unsigiled_lawful source
  have hbetween := ScanState.pastString_beside hlawful (.char '$' :: text) text
    (Token.sigiled (text.take n) :: (us ++ [Token.endAt p])) ts hbeside
  have hfuel : (ScanState.pastString text ts brace').cursor.rest.length < source.length := by
    have hshorter := congrArg List.length hinside'.rest
    rw [List.length_append, hbrace', List.length_cons, List.length_cons] at hshorter
    rw [hbetween.cursor.other, List.length_append]
    have hnil : (Fork.unsigiled source).other.length = 0 := rfl
    dsimp only at hshorter
    omega
  obtain ⟨r', v', hrun', hlast⟩ :=
    hrow.beside hlawful rfl rfl hbetween ⟨rfl, rfl, rfl⟩ ⟨rfl, rfl, rfl⟩ hfuel
  have hnew : r.tokens = [] ++ (ScanState.pastString (.char '$' :: text) _ brace).tokens :=
    hr.trans ht.symm
  obtain ⟨new', hnew', hmap⟩ := hlast.tokens.added hnew
  obtain rfl : new' = [] := List.map_eq_nil_iff.mp hmap
  rw [hu'] at hnew'
  refine ⟨us, p, t', f', r'.cursor.pos, r'.comments.reverse, rfl, ?_, hk', hhead', hf',
    hp'.trans (congrArg _ hts.symm)⟩
  subst hsource
  refine bind_eq_ok.mpr ⟨_, (ScanState.run_of_step hstep').trans hrun', ?_⟩
  rw [hnew']
  rfl

end ManifestTree
