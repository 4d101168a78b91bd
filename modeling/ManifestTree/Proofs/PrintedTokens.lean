import ManifestTree.Proofs.PlainRuns

/-!
# Printing tokens and scanning them again

Tokens can be printed one after the other with a line end between any two.  Scanning that text gives
the tokens again: each is recognised without its neighbours, and a slash opens a regular expression
where it did, since that depends on the token before it and on the line it stands on.  Only the
places differ, of the tokens and of all that lies within them.
-/

namespace ManifestTree

open Text

/-- Places are not looked at. -/
def View.placeless : View := ⟨fun _ => ⟨0, 0, 0, 0⟩, fun _ => 0, fun _ => Position.start⟩

namespace Token

/-- The texts of the tokens before the end of input, each on a line of its own unless its own text
has line ends. -/
def printed (ts : List Token) : Text := [.char '\n'].intercalate (ts.dropLast.map text)

/-- The texts of tokens, each after a line end. -/
def onLines (ts : List Token) : Text := ts.flatMap fun t => .char '\n' :: t.text

theorem intercalate_eq_tail (ts : List Token) :
    [.char '\n'].intercalate (ts.map text) = (onLines ts).tail := by
  cases ts with
  | nil => rfl
  | cons t ts =>
    induction ts generalizing t with
    | nil => simp [onLines]
    | cons u ts ih =>
      have h := ih u
      simp only [List.map_cons, onLines, List.flatMap_cons, List.cons_append, List.tail_cons] at h ⊢
      rw [List.intercalate_cons_cons, h]
      simp

theorem onLines_head (ts : List Token) :
    onLines ts = [] ∨ (onLines ts).head? = some (.char '\n') := by
  cases ts with
  | nil => exact .inl rfl
  | cons t ts => exact .inr rfl

end Token

/-- Two texts that go on without anything in common, the second one with a line end. -/
def Fork.apart (rest other whole : Text) : Fork where
  rest := rest
  other := other
  whole := whole
  places _ _ := True
  left := .placeless
  right := .placeless

theorem Fork.apart_lawful (rest whole : Text) {other : Text}
    (h : other = [] ∨ other.head? = some (.char '\n')) : (Fork.apart rest other whole).Lawful where
  step _ _ := trivial
  span _ _ := rfl
  cuts := .of_separated (separated_of_line h)
  regex _ := Lexeme.regexLength?_missed h
  lines _ := h

namespace ScanState

variable {s s' r : ScanState}

/-- A token that is read is read again before a line end or the end of a text, whatever was read
before it, but for whether that ends a value. -/
theorem Takes.again {s₂ : ScanState} {t : Token} {fuel m : Nat} {text other : Text}
    (h : s.Takes t s₂) (hstep : s.step (nestedRun fuel) = .ok (some s₂)) (hs : s.Plain)
    (hs' : s'.Plain) (hlast : s'.last.any TokenKind.endsValue = s.last.any TokenKind.endsValue)
    (hrest : s'.cursor.rest = t.text ++ other) (hat : Cursor.At text s'.cursor)
    (hother : other = [] ∨ other.head? = some (.char '\n')) (hlen : s'.cursor.rest.length ≤ m) :
    ∃ s₂' t', s'.step (nestedRun m) = .ok (some s₂') ∧ s₂'.tokens = t' :: s'.tokens ∧
      t'.seen .placeless = t.seen .placeless ∧ s₂'.cursor.rest = other ∧
      s₂'.last.any TokenKind.endsValue = s₂.last.any TokenKind.endsValue ∧
      Cursor.At text s₂'.cursor ∧ s₂'.Plain := by
  have hk := Fork.apart_lawful s₂.cursor.rest text hother
  have hbeside : Beside (.apart s₂.cursor.rest other text) s s' t.text s s' :=
    { cursor := ⟨h.passes.rest, hrest, trivial, hat⟩
      last := hlast
      closes := fun ho => by
        rw [hs'.opener] at ho
        cases ho
      tokens := .refl _ _ _ _
      comments := .refl _ _ _ _
      keeps := ⟨⟨rfl, rfl, rfl⟩, ⟨rfl, rfl, rfl⟩⟩ }
  obtain ⟨s₂', v, hok, hs₂⟩ := step_beside hk (nestedRun_sound fuel) (nestedRun_beside hk fuel m)
    hbeside h.fresh.nonempty hlen (fun _ => ⟨hs.waiting, hs'.waiting⟩) hstep
    (by rw [h.keeps.queue]) (Nat.le_refl _)
  have hrest₂ : s₂'.cursor.rest = other := hs₂.cursor.other_of_rest rfl
  obtain ⟨t', htokens, hseen⟩ := hs₂.tokens.single h.tokens
  exact ⟨s₂', t', hok, htokens, hseen, hrest₂, hs₂.last, hs₂.cursor.placed, hs₂.keeps.2.plain hs'⟩

/-- Tokens that a run reads from a state on are read again where they are printed. -/
theorem PlainRun.reprints {ts : List Token} (h : PlainRun s ts r) (hs : s.Plain) :
    ∃ later, ts = s.tokens.reverse ++ later ++ [Token.endAt r.cursor.pos] ∧
      ∀ text s' fuel, s'.Plain → s'.last.any TokenKind.endsValue = s.last.any TokenKind.endsValue →
        (s'.cursor.rest = Token.onLines later ∨ s'.cursor.rest = (Token.onLines later).tail) →
        Cursor.At text s'.cursor → s'.cursor.rest.length < fuel →
          ∃ us r', run fuel s' =
              .ok (s'.tokens.reverse ++ us ++ [Token.endAt r'.cursor.pos], r') ∧
            us.map (Token.seen .placeless) = later.map (Token.seen .placeless) := by
  induction h with
  | @ends s hnil =>
    refine ⟨[], by simp, fun text s' fuel hs' _ hrest _ hfuel => ?_⟩
    have hrest : s'.cursor.rest = [] := by rcases hrest with h | h <;> exact h
    obtain ⟨m, rfl⟩ := Nat.exists_eq_succ_of_ne_zero (Nat.ne_zero_of_lt hfuel)
    refine ⟨[], s', ?_, rfl⟩
    have hstop : s'.step (nestedRun m) = .ok none := by
      unfold step
      rw [hrest]
    rw [run_of_stop hstop, finish_plain hs', List.append_nil]
  | blank _ _ _ ih => exact ih hs.blank
  | comment _ hc _ ih =>
    obtain ⟨later, hlater, hagain⟩ := ih (hc.plain hs)
    obtain ⟨cs, after, -, -, rfl⟩ := hc
    exact ⟨later, hlater, hagain⟩
  | @token s s₂ r ts t fuel hstep ht _ ih =>
    obtain ⟨later, rfl, hagain⟩ := ih (ht.keeps.plain hs)
    refine ⟨t :: later, by rw [ht.tokens]; simp, fun text s' m hs' hlast hrest hat hm => ?_⟩
    -- First where the line end before the token is passed.
    have begun (s' : ScanState) (m : Nat) (hs' : s'.Plain)
        (hlast : s'.last.any TokenKind.endsValue = s.last.any TokenKind.endsValue)
        (hrest : s'.cursor.rest = t.text ++ Token.onLines later) (hat : Cursor.At text s'.cursor)
        (hm : s'.cursor.rest.length < m) :
        ∃ us r', run m s' = .ok (s'.tokens.reverse ++ us ++ [Token.endAt r'.cursor.pos], r') ∧
          us.map (Token.seen .placeless) = (t :: later).map (Token.seen .placeless) := by
      obtain ⟨m, rfl⟩ := Nat.exists_eq_succ_of_ne_zero (Nat.ne_zero_of_lt hm)
      obtain ⟨s₂', t', hok, htokens, hseen, hrest₂, hlast₂, hat₂, hs₂'⟩ := ht.again hstep hs hs'
        hlast hrest hat (Token.onLines_head later) (Nat.le_of_lt_succ hm)
      have hshorter : s₂'.cursor.rest.length < m := by
        have := List.length_pos_iff.mpr ht.fresh.nonempty
        rw [hrest, List.length_append] at hm
        rw [hrest₂]
        omega
      obtain ⟨us, r', hrun, hmap⟩ := hagain text s₂' m hs₂' hlast₂ (.inl hrest₂) hat₂ hshorter
      refine ⟨t' :: us, r', ?_, ?_⟩
      · rw [run_of_step hok, hrun, htokens]
        simp
      · rw [List.map_cons, List.map_cons, hseen, hmap]
    rcases hrest with hrest | hrest
    · have hcons : s'.cursor.rest = .char '\n' :: (t.text ++ Token.onLines later) := hrest
      obtain ⟨m, rfl⟩ := Nat.exists_eq_succ_of_ne_zero (Nat.ne_zero_of_lt hm)
      have hblank : s'.blank.cursor.rest = t.text ++ Token.onLines later := by
        simp [ScanState.blank, Cursor.skip, hcons]
      obtain ⟨us, r', hrun, hmap⟩ := begun s'.blank m hs'.blank hlast hblank (hat.skip 1) (by
        rw [hcons, List.length_cons] at hm
        rw [hblank]
        omega)
      exact ⟨us, r', (run_of_step (step_gap hcons (.inl rfl) hs'.waiting)).trans hrun, hmap⟩
    · exact begun s' m hs' hlast hrest hat hm

end ScanState

/-- Scanning the printed tokens of a source gives these tokens again: in order the same kinds and
texts, with the same fragments at any depth, at other places. -/
theorem Token.tokenize_printed {source : Text} {ts : List Token}
    (h : Token.tokenize source false = .ok ts) (hplain : ∀ t ∈ ts, t.kind ≠ .heredoc) :
    ∃ us, Token.tokenize (Token.printed ts) false = .ok us ∧
      us.map (Token.seen .placeless) = ts.map (Token.seen .placeless) := by
  obtain ⟨⟨tokens, comments⟩, hscan, hts⟩ := bind_eq_ok.mp h
  obtain rfl : tokens = ts := Except.ok.inj hts
  obtain ⟨⟨_, r⟩, hrun, hresult⟩ := bind_eq_ok.mp hscan
  obtain ⟨rfl, -⟩ := Prod.mk.inj (Except.ok.inj hresult)
  have hstart := ScanState.start_plain (Cursor.ofSource source)
  obtain ⟨later, rfl, hagain⟩ := (ScanState.run_plain hstart
    (ScanState.start_ready_source source) hrun hplain).reprints hstart
  have hprinted : Token.printed ((ScanState.start none (Cursor.ofSource source)).tokens.reverse ++
      later ++ [Token.endAt r.cursor.pos]) = (Token.onLines later).tail := by
    rw [printed, List.dropLast_concat]
    exact Token.intercalate_eq_tail later
  rw [hprinted]
  obtain ⟨us, r', hrun', hmap⟩ := hagain (Token.onLines later).tail
    (ScanState.start none (Cursor.ofSource (Token.onLines later).tail)) _
    (ScanState.start_plain _) rfl (.inr rfl) (.ofSource _) (Nat.lt_succ_self _)
  refine ⟨us ++ [Token.endAt r'.cursor.pos], ?_, ?_⟩
  · exact bind_eq_ok.mpr ⟨_, bind_eq_ok.mpr ⟨_, hrun', rfl⟩, rfl⟩
  · show _ = (later ++ [Token.endAt r.cursor.pos]).map (Token.seen .placeless)
    rw [List.map_append, List.map_append, hmap]
    rfl

/-- A regular expression, a division after it, and a string with an interpolation. -/
theorem Token.tokenize_printed_slashes : ∃ ts,
    Token.tokenize (Text.ofString "$x =~ /a b/ /2 # c\n \"$\x7b[1]\x7d/\"") false = .ok ts ∧
      Token.printed ts = Text.ofString "$x\n=~\n/a b/\n/\n2\n\"$\x7b[1]\x7d/\"" ∧
        ∃ us, Token.tokenize (Text.ofString "$x\n=~\n/a b/\n/\n2\n\"$\x7b[1]\x7d/\"") false =
            .ok us ∧
          us.map (Token.seen .placeless) = ts.map (Token.seen .placeless) := by
  have hrun :
      (Token.tokenize (Text.ofString "$x =~ /a b/ /2 # c\n \"$\x7b[1]\x7d/\"") false).toOption.map
      (fun ts => (Token.printed ts, ts.all fun t => t.kind ≠ .heredoc)) =
        some (Text.ofString "$x\n=~\n/a b/\n/\n2\n\"$\x7b[1]\x7d/\"", true) := by cbv
  obtain ⟨ts, hok, hts⟩ := exists_ok_of_map hrun
  obtain ⟨hprinted, hplain⟩ := Prod.mk.inj hts
  have hagain := Token.tokenize_printed hok (by simpa using hplain)
  exact ⟨ts, hok, hprinted, hprinted ▸ hagain⟩

end ManifestTree
