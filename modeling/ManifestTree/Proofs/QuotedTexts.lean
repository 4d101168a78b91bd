import ManifestTree.Proofs.PlainRuns

/-!
# Quoting any text

Every text can be written between quotes.  A backslash goes before each character that would
otherwise end the string or begin an escape, a variable or an interpolation.  The literal is
scanned as one string whose fragments stand for the text again.
-/

namespace ManifestTree

open Text

/-- A text with a backslash before each of the marked characters. -/
def backslashed (marked : Text) (s : Text) : Text :=
  s.flatMap fun c => if c ∈ marked then ['\\', c] else [c]

/-- A text between apostrophes, with a backslash before each backslash and apostrophe. -/
def singleQuoted (s : Text) : Text :=
  apostrophe :: backslashed ['\\', apostrophe] s ++ [apostrophe]

/-- A text between double quotes, with a backslash before each backslash, double quote and dollar
sign. -/
def doubleQuoted (s : Text) : Text :=
  doubleQuote :: backslashed ['\\', doubleQuote, '$'] s ++ [doubleQuote]

/-- The fragment stands for fixed characters: it is plain or an escape. -/
def Fragment.Fixed (f : Fragment) : Prop := f.piece = .content ∨ ∃ v, f.piece = .escape v

/-- The token is a string of plain characters and escapes that stands for the text. -/
structure Token.Spells (s : Text) (t : Token) : Prop where
  string : t.kind = .string
  fixed : ∀ f ∈ t.fragments, f.Fixed
  value : t.fragments.flatMap Fragment.value = s

namespace Fragments

variable {r : Reading} {quote : CodePoint} {marked : Text}

/-- Up to a quote, a backslash before a marked character is an escape that stands for it, and any
other character is plain. -/
structure Reading.Unmarks (r : Reading) (quote : CodePoint) (marked : Text) : Prop where
  stop : ∃ opener, r.stop = .quote quote opener
  closes : quote ∈ marked
  slash : quote ≠ '\\'
  escape : ∀ c ∈ marked, ∀ cs, r.special (.char '\\' :: c :: cs) = .escape 2 [c]
  plain : ∀ c ∉ marked, ∀ cs, r.special (c :: cs) = .plain

/-- The characters read since the last fragment stand for themselves. -/
theorem content_value {run c : Cursor} {cs : Text} (h : run.Reads cs c) :
    (content run c).flatMap Fragment.value = cs ∧
      ∀ f ∈ content run c, f.piece = .content := by
  unfold content
  split
  case isTrue hle =>
    rw [h.offset] at hle
    obtain rfl : cs = [] := List.length_eq_zero_iff.mp (by omega)
    exact ⟨rfl, List.forall_mem_nil _⟩
  case isFalse =>
    refine ⟨?_, List.forall_mem_singleton.mpr rfl⟩
    simp [Fragment.value, Fragment.piece, Fragment.text, h.upTo_eq]

/-- A text that is written with backslashes is read up to the quote, and its fragments stand for
it. -/
theorem scanFrom_backslashed (nested : NestedScan) (h : r.Unmarks quote marked)
    (rest s : Text) {fuel : Nat} {run c : Cursor} {before : Text}
    (hrun : run.Reads before c) (hc : c.rest = backslashed marked s ++ quote :: rest)
    (hfuel : c.rest.length < fuel) :
    ∃ fs last, scanFrom nested r fuel run c = .ok (fs, last) ∧
      c.Reads (backslashed marked s) last ∧ (∀ f ∈ fs, f.Fixed) ∧
      fs.flatMap Fragment.value = before ++ s := by
  obtain ⟨opener, hstop⟩ := h.stop
  -- Before the quote the region goes on with what stands there.
  have hnext {c : Cursor} {x : CodePoint} {xs : Text} (hx : c.rest = x :: xs) (hne : x ≠ quote) :
      r.next c = r.special (x :: xs) := by
    simp [Reading.next, hstop, Stop.holds, Cursor.atEnd, hx, hne]
  induction s generalizing fuel run c before with
  | nil =>
    obtain ⟨fuel, rfl⟩ := Nat.exists_eq_succ_of_ne_zero (Nat.ne_zero_of_lt hfuel)
    have hrest : c.rest = quote :: rest := hc
    have hdone : r.next c = .done := by simp [Reading.next, hstop, Stop.holds, hrest]
    obtain ⟨hvalue, hcontent⟩ := content_value hrun
    refine ⟨content run c, c, ?_, .refl c, fun f hf => .inl (hcontent f hf), ?_⟩
    · simp only [scanFrom, hdone]
    · rw [hvalue, List.append_nil]
  | cons x s ih =>
    obtain ⟨fuel, rfl⟩ := Nat.exists_eq_succ_of_ne_zero (Nat.ne_zero_of_lt hfuel)
    by_cases hx : x ∈ marked
    · have hsplit : backslashed marked (x :: s) = [.char '\\', x] ++ backslashed marked s := by
        simp [backslashed, hx]
      have hrest : c.rest = [.char '\\', x] ++ (backslashed marked s ++ quote :: rest) := by
        rw [hc, hsplit, List.append_assoc]
      have hread : c.Reads [.char '\\', x] (c.skip 2) := Cursor.reads_skip_length hrest
      have hescape : r.next c = .escape 2 [x] :=
        (hnext hrest h.slash.symm).trans (h.escape x hx _)
      have hrest₂ := List.append_cancel_left (hread.rest.symm.trans hrest)
      have hlen : (c.skip 2).rest.length < fuel := by
        rw [hread.rest, List.length_append, List.length_cons] at hfuel
        omega
      obtain ⟨fs, last, hok, hreads, hfixed, hvalue⟩ := ih (.refl (c.skip 2)) hrest₂ hlen
      obtain ⟨hbefore, hcontent⟩ := content_value hrun
      refine ⟨content run c ++ .mk (c.upTo (c.skip 2)) (c.spanTo (c.skip 2))
        (.escape [x]) :: fs, last, ?_, hsplit ▸ hread.trans hreads, ?_, ?_⟩
      · simp only [scanFrom, hescape, hok]
        rfl
      · exact List.forall_mem_append.mpr ⟨fun f hf => .inl (hcontent f hf),
          List.forall_mem_cons.mpr ⟨.inr ⟨_, rfl⟩, hfixed⟩⟩
      · rw [List.flatMap_append, List.flatMap_cons, hbefore, hvalue]
        simp [Fragment.value, Fragment.piece]
    · have hsplit : backslashed marked (x :: s) = [x] ++ backslashed marked s := by
        simp [backslashed, hx]
      have hrest : c.rest = [x] ++ (backslashed marked s ++ quote :: rest) := by
        rw [hc, hsplit, List.append_assoc]
      have hread : c.Reads [x] (c.skip 1) := Cursor.reads_skip_length hrest
      have hplain : r.next c = .plain :=
        (hnext hrest fun hq => hx (hq ▸ h.closes)).trans (h.plain x hx _)
      have hrest₂ := List.append_cancel_left (hread.rest.symm.trans hrest)
      have hlen : (c.skip 1).rest.length < fuel := by
        rw [hread.rest, List.length_append, List.length_singleton] at hfuel
        omega
      obtain ⟨fs, last, hok, hreads, hfixed, hvalue⟩ := ih (hrun.trans hread) hrest₂ hlen
      refine ⟨fs, last, ?_, hsplit ▸ hread.trans hreads, hfixed, ?_⟩
      · simp only [scanFrom, hplain, hok]
      · rw [hvalue, List.append_assoc]
        rfl

/-- A character other than a backslash is plain, and so is a dollar sign where nothing is looked for
after it. -/
theorem special_plain {c : CodePoint} (hslash : c ≠ '\\') (hdollar : r.interpolate = true → c ≠ '$')
    (cs : Text) : r.special (c :: cs) = .plain := by
  have hescape : Lexeme.escape? r.escapes (c :: cs) = none := by
    unfold Lexeme.escape?
    split
    · rename_i heq
      exact absurd (List.cons.inj heq).1 hslash
    · rfl
  unfold Reading.special
  rw [hescape]
  dsimp only
  split
  case isTrue hi =>
    have hc := hdollar hi
    have hvariable : Lexeme.variableLength? (c :: cs) = none := by
      unfold Lexeme.variableLength?
      split
      · rename_i heq
        exact absurd (List.cons.inj heq).1 hc
      · rfl
    rw [if_neg (by simp [hc.symm]), hvariable]
  case isFalse => rfl

end Fragments

namespace ScanState

/-- Between apostrophes a backslash makes an escape with an apostrophe and with itself. -/
theorem unmarks_apostrophe (opener : Span) :
    (quotedReading apostrophe opener).Unmarks apostrophe ['\\', apostrophe] where
  stop := ⟨opener, rfl⟩
  closes := by decide
  slash := by decide
  escape c hc cs := by
    simp only [List.mem_cons, List.not_mem_nil, or_false] at hc
    rcases hc with rfl | rfl <;> rfl
  plain c hc := Fragments.special_plain (fun h => hc (by simp [h])) nofun

/-- Between double quotes a backslash makes an escape also with a dollar sign. -/
theorem unmarks_doubleQuote (opener : Span) :
    (quotedReading doubleQuote opener).Unmarks doubleQuote ['\\', doubleQuote, '$'] where
  stop := ⟨opener, rfl⟩
  closes := by decide
  slash := by decide
  escape c hc cs := by
    simp only [List.mem_cons, List.not_mem_nil, or_false] at hc
    rcases hc with rfl | rfl | rfl <;> rfl
  plain c hc :=
    Fragments.special_plain (fun h => hc (by simp [h])) (fun _ h => hc (by simp [h]))

variable {a : ScanState} {quote : CodePoint} {marked : Text}

theorem step_backslashed (nested : NestedScan) (hquote : quote = doubleQuote ∨ quote = apostrophe)
    (h : ∀ opener, (quotedReading quote opener).Unmarks quote marked) (s rest : Text)
    (hrest : a.cursor.rest = quote :: backslashed marked s ++ quote :: rest) :
    ∃ fs after, a.step nested = .ok (some (a.emit .string after (.fragments fs))) ∧
      a.cursor.Reads (quote :: backslashed marked s ++ [quote]) after ∧
      (∀ f ∈ fs, f.Fixed) ∧ fs.flatMap Fragment.value = s := by
  have hopen : a.cursor.Reads [quote] (a.cursor.skip 1) := Cursor.reads_skip_one hrest
  have hinside : (a.cursor.skip 1).rest = backslashed marked s ++ quote :: rest :=
    (List.cons.inj (hopen.rest.symm.trans hrest)).2
  obtain ⟨fs, close, hok, hreads, hfixed, hvalue⟩ :=
    Fragments.scanFrom_backslashed nested (h (a.cursor.here 1)) rest s (.refl (a.cursor.skip 1))
      hinside (Nat.lt_succ_self _)
  have hclose : close.rest = quote :: rest :=
    List.append_cancel_left (hreads.rest.symm.trans hinside)
  refine ⟨fs, close.skip 1, ?_, (hopen.trans hreads).trans (Cursor.reads_skip_one hclose), hfixed,
    hvalue⟩
  have hstring : a.readString nested quote =
      .ok (a.emit .string (close.skip 1) (.fragments fs)) :=
    bind_eq_ok.mpr ⟨_, hok, rfl⟩
  have htoken : a.step nested = some <$> a.readString nested quote := by
    unfold step
    rw [hrest]
    rcases hquote with rfl | rfl <;>
      simp [readToken, doubleQuote, apostrophe, atClosingBrace]
  rw [htoken, hstring]
  rfl

end ScanState

namespace Token

variable {quote : CodePoint} {marked : Text}

/-- A source that is a text between quotes is scanned as one string. -/
theorem scan_backslashed (hquote : quote = doubleQuote ∨ quote = apostrophe)
    (h : ∀ opener, (ScanState.quotedReading quote opener).Unmarks quote marked)
    {s literal : Text} (hliteral : literal = quote :: backslashed marked s ++ [quote]) :
    ∃ t, t.Spells s ∧
      scan literal = .ok ([t, endAt (Position.start.after literal)], []) := by
  subst hliteral
  let a := ScanState.start none (Cursor.ofSource (quote :: backslashed marked s ++ [quote]))
  obtain ⟨n, hn⟩ : ∃ n, a.cursor.rest.length = n + 1 := ⟨_, rfl⟩
  obtain ⟨fs, after, hstep, hreads, hfixed, hvalue⟩ :=
    ScanState.step_backslashed (a := a) (ScanState.nestedRun (n + 1)) hquote h s [] rfl
  have hend : after.rest = [] := by
    have hrest : quote :: backslashed marked s ++ [quote] = _ := hreads.rest
    exact List.self_eq_append_right.mp hrest
  let b := a.emit .string after (.fragments fs)
  have hstop : b.step (ScanState.nestedRun n) = .ok none := by
    show ScanState.step _ _ = _
    unfold ScanState.step
    rw [show b.cursor.rest = [] from hend]
  have hrun : ScanState.run (a.cursor.rest.length + 1) a =
      .ok (b.tokens.reverse ++ [endAt after.pos], b) := by
    rw [hn, ScanState.run_of_step hstep, ScanState.run_of_stop hstop]
    exact ScanState.finish_plain ⟨rfl, rfl, rfl⟩
  refine ⟨.mk .string (a.cursor.upTo after) (a.cursor.spanTo after) (.fragments fs),
    ⟨rfl, hfixed, hvalue⟩, ?_⟩
  have hpos : after.pos = Position.start.after (quote :: backslashed marked s ++ [quote]) :=
    hreads.pos
  exact bind_eq_ok.mpr ⟨_, hrun, by rw [hpos]; rfl⟩

/-- One token and no comment. -/
theorem tokenize_single {source : Text} {t last : Token} (includeComments : Bool)
    (h : scan source = .ok ([t, last], [])) :
    tokenize source includeComments = .ok [t, last] := by
  refine bind_eq_ok.mpr ⟨_, h, ?_⟩
  cases includeComments with
  | false => rfl
  | true => simp [pure, Except.pure]

/-- Every text can be quoted: the literal between apostrophes and the one between double quotes
are each one string, whose fragments are plain characters and escapes and stand for the text. -/
theorem tokenize_quoted (s : Text) (includeComments : Bool) :
    (∃ t, t.Spells s ∧ tokenize (singleQuoted s) includeComments =
      .ok [t, endAt (Position.start.after (singleQuoted s))]) ∧
    (∃ t, t.Spells s ∧ tokenize (doubleQuoted s) includeComments =
      .ok [t, endAt (Position.start.after (doubleQuoted s))]) := by
  constructor
  · obtain ⟨t, ht, hscan⟩ :=
      scan_backslashed (.inr rfl) ScanState.unmarks_apostrophe (s := s) rfl
    exact ⟨t, ht, tokenize_single includeComments hscan⟩
  · obtain ⟨t, ht, hscan⟩ :=
      scan_backslashed (.inl rfl) ScanState.unmarks_doubleQuote (s := s) rfl
    exact ⟨t, ht, tokenize_single includeComments hscan⟩

end Token

end ManifestTree
