import ManifestTree.Parse.Manifest
import ManifestTree.Proofs.PlainRuns

/-!
# Comments as blanks

Comments do not matter to the scanner, even where it looks ahead: with blanks in the place of some
comments a source without heredocs has the same tokens at the same places, and so the same
statements.  A token that stands before a comment ends there also before a blank, and a slash that
opens no regular expression opens none if characters after it on its line are blanks: a comment up
to the end of the line has no slash that could close it, and a comment between signs would have
closed it itself.
-/

namespace ManifestTree

open Text

/-! ## Blanks in the place of characters -/

/-- From an offset on, a text with spaces at the hidden offsets, where line ends stay. -/
def fadeFrom (hidden : Nat → Bool) : Nat → Text → Text
  | _, [] => []
  | n, c :: cs => (if c ≠ '\n' ∧ hidden n then ' ' else c) :: fadeFrom hidden (n + 1) cs

/-- Whether an offset lies in one of the tokens. -/
def Token.cover (ts : List Token) (i : Nat) : Bool := ts.any fun t => decide (t.span.Contains i)

/-- A source with a space for each character of the comments but line ends. -/
def blankOut (comments : List Token) (source : Text) : Text :=
  fadeFrom (Token.cover comments) 0 source

/-- A blank for every character but a line end. -/
def blankLines (cs : Text) : Text := cs.map fun c => if c = .char '\n' then c else ' '

section

variable {hidden : Nat → Bool} {n : Nat}

theorem fadeFrom_append (n : Nat) (a b : Text) :
    fadeFrom hidden n (a ++ b) = fadeFrom hidden n a ++ fadeFrom hidden (n + a.length) b := by
  induction a generalizing n with
  | nil => rfl
  | cons c a ih =>
    rw [List.cons_append, fadeFrom, ih, fadeFrom, List.cons_append, List.length_cons,
      Nat.add_assoc n, Nat.add_comm 1]

@[simp] theorem length_fadeFrom (n : Nat) (cs : Text) :
    (fadeFrom hidden n cs).length = cs.length := by
  induction cs generalizing n with
  | nil => rfl
  | cons c cs ih => rw [fadeFrom, List.length_cons, List.length_cons, ih]

/-- Where nothing is hidden the text stays. -/
theorem fadeFrom_shown {cs : Text} (h : ∀ i, n ≤ i → i < n + cs.length → hidden i = false) :
    fadeFrom hidden n cs = cs := by
  induction cs generalizing n with
  | nil => rfl
  | cons c cs ih =>
    rw [List.length_cons] at h
    rw [fadeFrom, h n (Nat.le_refl n) (by omega), if_neg (by simp),
      ih fun i hi hlt => h i (by omega) (by omega)]

/-- Blanks take as much place as the characters that they stand for. -/
theorem after_fadeFrom (p : Position) (n : Nat) (cs : Text) :
    p.after (fadeFrom hidden n cs) = p.after cs := by
  induction cs generalizing p n with
  | nil => rfl
  | cons c cs ih =>
    rw [fadeFrom, Position.after_cons, Position.after_cons, ih]
    congr 1
    unfold Position.step
    split_ifs with hc <;> simp_all

/-- The first character that differs is a space. -/
theorem cuts_fadeFrom (n : Nat) (cs : Text) : Cuts cs (fadeFrom hidden n cs) := by
  induction cs generalizing n with
  | nil => exact .refl []
  | cons c cs ih =>
    rw [fadeFrom]
    split
    · refine .of_separated fun d hd => .inl ?_
      exact (Option.some.inj hd).symm
    · obtain ⟨common, v, v', hv, hv', hsep⟩ := ih (n + 1)
      refine ⟨c :: common, v, v', by rw [hv]; rfl, by rw [hv']; rfl, hsep⟩

/-- A line ends where it did. -/
theorem fadeFrom_line {cs : Text} (h : cs = [] ∨ cs.head? = some (.char '\n')) :
    fadeFrom hidden n cs = [] ∨ (fadeFrom hidden n cs).head? = some (.char '\n') := by
  rcases h with rfl | h
  · exact .inl rfl
  · obtain ⟨cs, rfl⟩ := List.head?_eq_some_iff.mp h
    exact .inr rfl

theorem fadeFrom_hidden {cs : Text} (h : ∀ i, n ≤ i → i < n + cs.length → hidden i = true) :
    fadeFrom hidden n cs = blankLines cs := by
  induction cs generalizing n with
  | nil => rfl
  | cons c cs ih =>
    rw [List.length_cons] at h
    rw [fadeFrom, h n (Nat.le_refl n) (by omega), ih fun i hi hlt => h i (by omega) (by omega),
      blankLines, blankLines, List.map_cons]
    congr 1
    by_cases hc : c = '\n' <;> simp [hc]

end

/-! ## Regular expressions over a comment -/

namespace Lexeme

variable {cs z z' : Text}

/-- What remains of a regular expression after a backslash. -/
def afterBackslash? : Text → Option Nat
  | [] => none
  | c :: cs => if c = '\n' then none else regexTailLength? cs

theorem regexTailLength?_backslash (cs : Text) :
    regexTailLength? (.char '\\' :: cs) = (afterBackslash? cs).map (· + 2) := by
  cases cs with
  | nil => rfl
  | cons c cs =>
    rw [regexTailLength?, afterBackslash?]
    split <;> rfl

/-- After the characters `v` a regular expression is over or has met a line end, or it goes on, or it
goes on after a backslash. -/
theorem regexTailLength?_through (v : Text) :
    (∀ y y', regexTailLength? (v ++ y) = none → regexTailLength? (v ++ y') = none) ∨
      (∀ y, regexTailLength? (v ++ y) = none ↔ regexTailLength? y = none) ∨
        ∀ y, regexTailLength? (v ++ y) = none ↔ afterBackslash? y = none := by
  -- A character more in front of what is read.
  have shift {v w : Text} (j : Nat)
      (hw : ∀ y, regexTailLength? (w ++ y) = (regexTailLength? (v ++ y)).map (· + j))
      (h : (∀ y y', regexTailLength? (v ++ y) = none → regexTailLength? (v ++ y') = none) ∨
        (∀ y, regexTailLength? (v ++ y) = none ↔ regexTailLength? y = none) ∨
          ∀ y, regexTailLength? (v ++ y) = none ↔ afterBackslash? y = none) :
      (∀ y y', regexTailLength? (w ++ y) = none → regexTailLength? (w ++ y') = none) ∨
        (∀ y, regexTailLength? (w ++ y) = none ↔ regexTailLength? y = none) ∨
          ∀ y, regexTailLength? (w ++ y) = none ↔ afterBackslash? y = none := by
    simpa only [hw, Option.map_eq_none_iff] using h
  induction v using regexTailLength?.induct with
  | case1 => exact .inr (.inl fun y => Iff.rfl)
  | case2 tail =>
    refine .inl fun y y' h => ?_
    rw [List.cons_append, regexTailLength?] at h
    cases h
  | case3 =>
    refine .inr (.inr fun y => ?_)
    rw [List.cons_append, List.nil_append, regexTailLength?_backslash, Option.map_eq_none_iff]
  | case4 tail =>
    refine .inl fun y y' _ => ?_
    rw [List.cons_append, List.cons_append, regexTailLength?, if_pos rfl]
  | case5 c cs hc ih =>
    refine shift 2 (fun y => ?_) ih
    rw [List.cons_append, List.cons_append, regexTailLength?, if_neg hc]
  | case6 cs =>
    refine .inl fun y y' _ => ?_
    simp [regexTailLength?]
  | case7 c cs h₁ h₂ h₃ hc ih =>
    have hslash : c ≠ '\\' := by
      rintro rfl
      cases cs with
      | nil => exact h₂ rfl rfl
      | cons d ds => exact h₃ d ds rfl rfl
    refine shift 1 (fun y => ?_) ih
    rw [List.cons_append, regexTailLength?.eq_5 _ _ h₁ (fun h => absurd h hslash)
      (fun _ _ h => absurd h hslash), if_neg hc]

/-- Blanks up to a line end or the end of the text close no regular expression. -/
theorem regexTailLength?_blankLines (h : .char '\n' ∈ cs ∨ z = [] ∨ z.head? = some (.char '\n')) :
    regexTailLength? (blankLines cs ++ z) = none := by
  induction cs with
  | nil =>
    rcases h with h | rfl | h
    · cases h
    · rfl
    · obtain ⟨z, rfl⟩ := List.head?_eq_some_iff.mp h
      rfl
  | cons c cs ih =>
    rw [blankLines, List.map_cons, List.cons_append]
    by_cases hc : c = '\n'
    · rw [if_pos hc, hc]
      rfl
    · have hcs : regexTailLength? (blankLines cs ++ z) = none :=
        ih (h.imp_left fun h => (List.mem_cons.mp h).resolve_left fun h => hc h.symm)
      rw [if_neg hc, regexTailLength?.eq_5 _ _ (by decide) (by rintro ⟨⟩) (by rintro _ _ ⟨⟩)]
      show (if ' ' = '\n' then none else (regexTailLength? (blankLines cs ++ z)).map (· + 1)) = none
      rw [hcs]
      rfl

/-- The slash of the sign that closes a comment closes a regular expression on its line. -/
theorem regexTailLength?_closes (b z : Text) (h : .char '\n' ∉ b) :
    regexTailLength? (b ++ .char '*' :: .char '/' :: z) ≠ none := by
  induction b using regexTailLength?.induct with
  | case1 => simp [regexTailLength?]
  | case2 tail => simp [regexTailLength?]
  | case3 => simp [regexTailLength?]
  | case4 tail => exact absurd h (by simp)
  | case5 c cs hc ih =>
    rw [List.cons_append, List.cons_append, regexTailLength?, if_neg hc]
    have := ih fun hmem => h (List.mem_cons_of_mem _ (List.mem_cons_of_mem _ hmem))
    simpa using this
  | case6 cs => exact absurd h (by simp)
  | case7 c cs h₁ h₂ h₃ hc ih =>
    have hslash : c ≠ '\\' := by
      rintro rfl
      cases cs with
      | nil => exact h₂ rfl rfl
      | cons d ds => exact h₃ d ds rfl rfl
    rw [List.cons_append, regexTailLength?.eq_5 _ _ h₁ (fun h => absurd h hslash)
      (fun _ _ h => absurd h hslash), if_neg hc]
    have := ih fun hmem => h (List.mem_cons_of_mem _ hmem)
    simpa using this

/-- No regular expression begins before a comment that is made blanks, if none began there with the
comment. -/
theorem regexLength?_blankLines (hc : IsComment cs z)
    (hz : z = [] ∨ z.head? = some (.char '\n') → z' = [] ∨ z'.head? = some (.char '\n')) (v : Text)
    (h : regexLength? (v ++ (cs ++ z)) = none) : regexLength? (v ++ (blankLines cs ++ z')) = none := by
  cases v with
  | nil =>
    rcases hc with ⟨body, rfl, -⟩ | ⟨body, rfl, -⟩ <;> rfl
  | cons c v =>
    by_cases hslash : c = '/'
    · subst hslash
      rw [List.cons_append, regexLength?, Option.map_eq_none_iff] at h ⊢
      rcases regexTailLength?_through v with hover | hon | hescape
      · exact hover _ _ h
      · rw [hon] at h ⊢
        rcases hc with ⟨body, rfl, -, hend⟩ | ⟨body, rfl, -⟩
        · exact regexTailLength?_blankLines (.inr (hz hend))
        · -- The slash that begins the comment would have closed it.
          simp [regexTailLength?] at h
      · rw [hescape] at h ⊢
        rcases hc with ⟨body, rfl, -, hend⟩ | ⟨body, rfl, -⟩
        · show regexTailLength? (blankLines body ++ z') = none
          exact regexTailLength?_blankLines (.inr (hz hend))
        · have hline : .char '\n' ∈ body := by
            by_contra hline
            have hcloses := regexTailLength?_closes (.char '*' :: body) z (by simpa using hline)
            exact hcloses (by simpa [afterBackslash?] using h)
          show regexTailLength? (blankLines (.char '*' :: body ++ [.char '*', .char '/']) ++ z') =
              none
          exact regexTailLength?_blankLines (.inl (by simp [hline]))
    · simp [regexLength?, hslash]

end Lexeme

/-! ## Scans of a source with blanks -/

namespace ScanState

variable {chosen : Token → Bool} {hidden : Nat → Bool} {s s' s₂ r : ScanState}

/-- Comments end before the state at which they were passed. -/
def Past (s : ScanState) : Prop := ∀ t ∈ s.comments, t.span.stop ≤ s.cursor.offset

/-- A step that does not matter to blanks passes characters that stay, and it keeps the comments
that it passes. -/
structure Stays (chosen : Token → Bool) (hidden : Nat → Bool) (s : ScanState) (cs : Text)
    (s₂ : ScanState) : Prop where
  steps : ∃ fuel, s.step (nestedRun fuel) = .ok (some s₂)
  passes : s.cursor.Passes cs s₂.cursor
  nonempty : cs ≠ []
  keeps : s.Keeps s₂
  kept : ∃ new, s₂.comments = new ++ s.comments ∧ ∀ t ∈ new, chosen t = false
  shown : ∀ i, s.cursor.offset ≤ i → i < s.cursor.offset + cs.length → hidden i = false

/-- A run to the end of the source that passes chosen comments, which are hidden, and other
characters, which are not. -/
inductive FadingRun (chosen : Token → Bool) (hidden : Nat → Bool) : ScanState → ScanState → Prop
  /-- The source ends. -/
  | ends {s : ScanState} : s.cursor.rest = [] → FadingRun chosen hidden s s
  /-- Characters that stay are passed. -/
  | stays {s s₂ r : ScanState} {cs : Text} : s.Stays chosen hidden cs s₂ →
      FadingRun chosen hidden s₂ r → FadingRun chosen hidden s r
  /-- A chosen comment is passed. -/
  | fades {s r : ScanState} {cs : Text} {after : Cursor} : s.cursor.Reads cs after →
      IsComment cs after.rest →
      (∀ i, s.cursor.offset ≤ i → i < s.cursor.offset + cs.length → hidden i = true) →
      chosen (.mk .comment (s.cursor.upTo after) (s.cursor.spanTo after) .plain) = true →
      FadingRun chosen hidden (s.emitComment after) r → FadingRun chosen hidden s r

/-- The comments that a run passes begin where it begins or after that. -/
theorem PlainRun.later_comments {ts : List Token} (h : PlainRun s ts r) :
    ∃ later, r.comments = later ++ s.comments ∧
      ∀ t ∈ later, (s.cursor.offset : Int) ≤ t.span.start := by
  induction h with
  | ends => exact ⟨[], rfl, List.forall_mem_nil _⟩
  | @blank s r ts c cs hc _ _ ih =>
    obtain ⟨later, hlater, hbegin⟩ := ih
    refine ⟨later, hlater, fun t ht => ?_⟩
    have hoffset : s.blank.cursor.offset = s.cursor.offset + 1 :=
      (Cursor.reads_skip_one hc).offset
    have := hbegin t ht
    omega
  | @comment s s₂ r ts fuel _ hcomment _ ih =>
    obtain ⟨cs, after, hr, -, rfl⟩ := hcomment
    obtain ⟨later, hlater, hbegin⟩ := ih
    refine ⟨later ++ [_], by rw [hlater, List.append_assoc]; rfl, fun t ht => ?_⟩
    have hoffset : (s.emitComment after).cursor.offset = s.cursor.offset + cs.length := hr.offset
    rcases List.mem_append.mp ht with ht | ht
    · have := hbegin t ht
      omega
    · cases List.mem_singleton.mp ht
      exact Int.le_refl _
  | @token s s₂ r ts t fuel _ htakes _ ih =>
    obtain ⟨later, hlater, hbegin⟩ := ih
    refine ⟨later, by rw [hlater, htakes.comments], fun t ht => ?_⟩
    have := htakes.passes.offset
    have := hbegin t ht
    omega

/-- Between two states of a run only comments found there are covered. -/
theorem PlainRun.cover_between {ts new : List Token} (h : PlainRun s₂ ts r) (hpast : s.Past)
    (hnew : s₂.comments = new ++ s.comments) {i : Nat} (hi : s.cursor.offset ≤ i)
    (hlt : i < s₂.cursor.offset) :
    Token.cover (r.comments.filter chosen) i = Token.cover (new.filter chosen) i := by
  obtain ⟨later, hlater, hbegin⟩ := h.later_comments
  have hnone : Token.cover (later.filter chosen) i = false := by
    refine List.any_eq_false.mpr fun t ht => ?_
    have := hbegin t (List.mem_filter.mp ht).1
    rw [decide_eq_true_eq, Span.Contains]
    omega
  have hnone' : Token.cover (s.comments.filter chosen) i = false := by
    refine List.any_eq_false.mpr fun t ht => ?_
    have := hpast t (List.mem_filter.mp ht).1
    rw [decide_eq_true_eq, Span.Contains]
    omega
  unfold Token.cover at hnone hnone' ⊢
  rw [hlater, hnew, List.filter_append, List.filter_append, List.any_append, List.any_append,
    hnone, hnone', Bool.false_or, Bool.or_false]

/-- A run without heredocs as it passes the characters of comments and others. -/
theorem PlainRun.fading (chosen : Token → Bool) {ts : List Token} (h : PlainRun s ts r)
    (hs : s.Plain) (hpast : s.Past) :
    FadingRun chosen (Token.cover (r.comments.filter chosen)) s r ∧
      ts = r.tokens.reverse ++ [Token.endAt r.cursor.pos] := by
  induction h with
  | ends hnil => exact ⟨.ends hnil, rfl⟩
  | @blank s r ts c cs hc hgap hrun ih =>
    have hr := Cursor.reads_skip_one hc
    have hoffset : s.blank.cursor.offset = s.cursor.offset + 1 := hr.offset
    have hpast₂ : s.blank.Past := fun t ht => by
      have := hpast t ht
      omega
    obtain ⟨hfading, hts⟩ := ih hs.blank hpast₂
    refine ⟨.stays ⟨⟨0, step_gap hc hgap hs.waiting⟩, hr.passes, List.cons_ne_nil _ _,
      ⟨rfl, rfl, rfl⟩, ⟨[], rfl, List.forall_mem_nil _⟩, fun i hi hlt => ?_⟩ hfading, hts⟩
    rw [hrun.cover_between hpast (List.nil_append _).symm hi (by rwa [hoffset])]
    rfl
  | @token s s₂ r ts t fuel hstep htakes hrun ih =>
    have hoffset := htakes.passes.offset
    have hpast₂ : s₂.Past := fun t ht => by
      have := hpast t (htakes.comments ▸ ht)
      omega
    obtain ⟨hfading, hts⟩ := ih (htakes.keeps.plain hs) hpast₂
    refine ⟨.stays ⟨⟨fuel, hstep⟩, htakes.passes, htakes.fresh.nonempty, htakes.keeps,
      ⟨[], htakes.comments, List.forall_mem_nil _⟩, fun i hi hlt => ?_⟩ hfading, hts⟩
    rw [hrun.cover_between hpast (htakes.comments.trans (List.nil_append _).symm) hi (by rwa [hoffset])]
    rfl
  | @comment s s₂ r ts fuel hstep hcomment hrun ih =>
    have hs₂ := hcomment.plain hs
    obtain ⟨cs, after, hr, hc, rfl⟩ := hcomment
    have hoffset : (s.emitComment after).cursor.offset = s.cursor.offset + cs.length := hr.offset
    have hpast₂ : (s.emitComment after).Past := fun t ht => by
      rcases List.mem_cons.mp ht with rfl | ht
      · exact Int.le_refl _
      · have := hpast t ht
        omega
    obtain ⟨hfading, hts⟩ := ih hs₂ hpast₂
    have hcover {i : Nat} (hi : s.cursor.offset ≤ i) (hlt : i < s.cursor.offset + cs.length) :
        Token.cover (r.comments.filter chosen) i = Token.cover
          ([.mk .comment (s.cursor.upTo after) (s.cursor.spanTo after) .plain].filter chosen) i :=
      hrun.cover_between hpast List.singleton_append.symm hi (by rwa [hoffset])
    cases hchosen : chosen (.mk .comment (s.cursor.upTo after) (s.cursor.spanTo after) .plain) with
    | false =>
      refine ⟨.stays ⟨⟨fuel, hstep⟩, hr.passes, hc.ne_nil, ⟨rfl, rfl, rfl⟩,
        ⟨_, List.singleton_append.symm, ?_⟩, fun i hi hlt => ?_⟩ hfading, hts⟩
      · rintro t ht
        rw [List.mem_singleton.mp ht]
        exact hchosen
      · rw [hcover hi hlt, List.filter_cons_of_neg (by rw [hchosen]; simp)]
        rfl
    | true =>
      refine ⟨.fades hr hc (fun i hi hlt => ?_) hchosen hfading, hts⟩
      rw [hcover hi hlt, List.filter_cons_of_pos hchosen, Token.cover, List.any_eq_true]
      refine ⟨_, List.mem_cons_self, decide_eq_true (Span.contains_between.mpr ⟨hi, ?_⟩)⟩
      exact hlt.trans_eq hr.offset.symm

/-- No slash before a state opens a regular expression because comments after it become blanks. -/
theorem FadingRun.regex (h : FadingRun chosen hidden s r) (v : Text)
    (hv : Lexeme.regexLength? (v ++ s.cursor.rest) = none) :
    Lexeme.regexLength? (v ++ fadeFrom hidden s.cursor.offset s.cursor.rest) = none := by
  induction h generalizing v with
  | ends hnil =>
    rw [hnil] at hv ⊢
    exact hv
  | @stays s s₂ r cs hstays _ ih =>
    have hrest := hstays.passes.rest
    rw [hrest, ← List.append_assoc] at hv
    rw [hrest, fadeFrom_append, fadeFrom_shown hstays.shown, ← hstays.passes.offset,
      ← List.append_assoc]
    exact ih (v ++ cs) hv
  | @fades s r cs after hr hc hhidden _ _ ih =>
    rw [hr.rest] at hv ⊢
    rw [fadeFrom_append, fadeFrom_hidden hhidden]
    exact Lexeme.regexLength?_blankLines hc fadeFrom_line v hv

theorem isGap_blankLines (cs : Text) : ∀ c ∈ blankLines cs, IsGap c := by
  intro c hc
  obtain ⟨d, -, rfl⟩ := List.mem_map.mp hc
  split
  · exact .inl ‹_›
  · exact .inr (.inl rfl)

/-- Blanks and line ends are passed one after the other. -/
theorem run_gaps {fuel : Nat} {gs z : Text} (hgaps : ∀ c ∈ gs, IsGap c) (hs : s.Plain)
    (hrest : s.cursor.rest = gs ++ z) :
    run (fuel + gs.length) s = run fuel { s with cursor := s.cursor.skip gs.length } := by
  induction gs generalizing s with
  | nil => rfl
  | cons g gs ih =>
    obtain ⟨hg, hgs⟩ := List.forall_mem_cons.mp hgaps
    have hblank : s.blank.cursor.rest = gs ++ z := by
      simp [ScanState.blank, Cursor.skip, hrest]
    rw [List.length_cons, ← Nat.add_assoc, run_of_step (step_gap hrest hg hs.waiting),
      ih hgs hs.blank hblank]
    show run fuel { s with cursor := (s.cursor.skip 1).skip gs.length } = _
    rw [Cursor.skip_skip, Nat.add_comm 1]

/-- Two scans have found the same but for chosen comments, and the second has blanks in the place of
chosen comments before it. -/
structure Fades (chosen : Token → Bool) (hidden : Nat → Bool) (text : Text)
    (s s' : ScanState) : Prop where
  pos : s'.cursor.pos = s.cursor.pos
  rest : s'.cursor.rest = fadeFrom hidden s.cursor.offset s.cursor.rest
  tokens : s'.tokens = s.tokens
  comments : s'.comments = s.comments.filter fun t => !chosen t
  last : s'.last.any TokenKind.endsValue = s.last.any TokenKind.endsValue
  plain : s.Plain
  plain' : s'.Plain
  placed : Cursor.At text s'.cursor

end ScanState

/-- A text that goes on, and the same with blanks in the place of some characters. -/
def Fork.faded (hidden : Nat → Bool) (n : Nat) (rest whole : Text) : Fork where
  rest := rest
  other := fadeFrom hidden n rest
  whole := whole
  places p p' := p' = p
  left := .plain
  right := .plain

namespace ScanState

variable {chosen : Token → Bool} {hidden : Nat → Bool} {s s' s₂ r : ScanState} {text : Text}

theorem FadingRun.fork_lawful (h : FadingRun chosen hidden s r) (whole : Text) :
    (Fork.faded hidden s.cursor.offset s.cursor.rest whole).Lawful where
  step := by
    rintro p _ rfl c
    rfl
  span := by
    rintro p _ q _ rfl rfl
    rfl
  cuts := cuts_fadeFrom _ _
  regex v hv := h.regex v hv
  lines := fadeFrom_line

/-- A step that does not matter to blanks is taken with them, too. -/
theorem Stays.again {cs : Text} {m : Nat} (h : s.Stays chosen hidden cs s₂)
    (hrun : FadingRun chosen hidden s₂ r) (hs : s.Fades chosen hidden text s')
    (hm : s'.cursor.rest.length ≤ m) :
    ∃ s₂', s'.step (nestedRun m) = .ok (some s₂') ∧ s₂.Fades chosen hidden text s₂' := by
  obtain ⟨fuel, hstep⟩ := h.steps
  obtain ⟨new, hnew, hunchosen⟩ := h.kept
  have hk := hrun.fork_lawful text
  have hother : s'.cursor.rest = cs ++ fadeFrom hidden s₂.cursor.offset s₂.cursor.rest := by
    rw [hs.rest, h.passes.rest, fadeFrom_append, fadeFrom_shown h.shown, h.passes.offset]
  have hbeside : Beside (.faded hidden s₂.cursor.offset s₂.cursor.rest text) s s' cs s s' :=
    { cursor := ⟨h.passes.rest, hother, hs.pos, hs.placed⟩
      last := hs.last
      closes := fun ho => by
        rw [hs.plain'.opener] at ho
        cases ho
      tokens := .refl _ _ _ _
      comments := .refl _ _ _ _
      keeps := ⟨⟨rfl, rfl, rfl⟩, ⟨rfl, rfl, rfl⟩⟩ }
  obtain ⟨s₂', v, hok, h₂⟩ := step_beside hk (nestedRun_sound fuel) (nestedRun_beside hk fuel m)
    hbeside h.nonempty hm (fun _ => ⟨hs.plain.waiting, hs.plain'.waiting⟩) hstep
    (by rw [h.keeps.queue]) (Nat.le_refl _)
  -- Both scans add the same tokens and comments, which are looked at as they are.
  have same {xs xs' : List Token} {a a' : List Token}
      (hgrown : Grown (Token.seen View.plain) (Token.seen View.plain) a a' xs xs') :
      ∃ new, xs = new ++ a ∧ xs' = new ++ a' := by
    obtain ⟨new, new', hxs, hxs', hmap⟩ := hgrown
    rw [Token.seen_plain_eq_id, List.map_id, List.map_id] at hmap
    exact ⟨new, hxs, hmap ▸ hxs'⟩
  obtain ⟨added, htokens, htokens'⟩ := same h₂.tokens
  obtain ⟨comments, hcomments, hcomments'⟩ := same h₂.comments
  refine ⟨s₂', hok, h₂.cursor.pos, h₂.cursor.other_of_rest rfl, ?_, ?_, h₂.last,
    h.keeps.plain hs.plain, h₂.keeps.2.plain hs.plain', h₂.cursor.placed⟩
  · rw [htokens', htokens, hs.tokens]
  · obtain rfl : comments = new := List.append_cancel_right (hcomments.symm.trans hnew)
    have hkept : comments.filter (fun t => !chosen t) = comments :=
      List.filter_eq_self.mpr fun t ht => by rw [hunchosen t ht]; rfl
    rw [hcomments', hcomments, hs.comments, List.filter_append, hkept]

/-- With blanks in the place of chosen comments a run finds the same tokens, and the other
comments. -/
theorem FadingRun.rescans (h : FadingRun chosen hidden s r) {fuel : Nat}
    (hs : s.Fades chosen hidden text s') (hfuel : s'.cursor.rest.length < fuel) :
    ∃ r', run fuel s' = .ok (r'.tokens.reverse ++ [Token.endAt r'.cursor.pos], r') ∧
      r.Fades chosen hidden text r' := by
  induction h generalizing s' fuel with
  | @ends s hnil =>
    obtain ⟨m, rfl⟩ := Nat.exists_eq_succ_of_ne_zero (Nat.ne_zero_of_lt hfuel)
    have hstop : s'.step (nestedRun m) = .ok none := by
      unfold step
      rw [hs.rest, hnil]
      rfl
    exact ⟨s', by rw [run_of_stop hstop, finish_plain hs.plain'], hs⟩
  | @stays s s₂ r cs hstays hrun ih =>
    obtain ⟨m, rfl⟩ := Nat.exists_eq_succ_of_ne_zero (Nat.ne_zero_of_lt hfuel)
    obtain ⟨s₂', hok, hs₂⟩ := hstays.again hrun hs (Nat.le_of_lt_succ hfuel)
    have hshorter : s₂'.cursor.rest.length < m := by
      have := List.length_pos_iff.mpr hstays.nonempty
      rw [hs.rest, length_fadeFrom, hstays.passes.rest, List.length_append] at hfuel
      rw [hs₂.rest, length_fadeFrom]
      omega
    rw [run_of_step hok]
    exact ih hs₂ hshorter
  | @fades s r cs after hr hc hhidden hchosen _ ih =>
    have hrest : s'.cursor.rest =
        blankLines cs ++ fadeFrom hidden after.offset after.rest := by
      rw [hs.rest, hr.rest, fadeFrom_append, fadeFrom_hidden hhidden, hr.offset]
    have hlength : (blankLines cs).length = cs.length := List.length_map _
    have hread := Cursor.reads_skip_length hrest
    obtain ⟨m, rfl⟩ : ∃ m, fuel = m + (blankLines cs).length := by
      refine ⟨fuel - (blankLines cs).length, ?_⟩
      rw [hrest, List.length_append] at hfuel
      omega
    rw [run_gaps (isGap_blankLines cs) hs.plain' hrest]
    refine ih ⟨?_, List.append_cancel_left (hread.rest.symm.trans hrest), hs.tokens, ?_, hs.last,
      ⟨hs.plain.opener, hs.plain.waiting, hs.plain.bodies⟩,
      ⟨hs.plain'.opener, hs.plain'.waiting, hs.plain'.bodies⟩, hread.at hs.placed⟩ ?_
    · show (s'.cursor.skip (blankLines cs).length).pos = after.pos
      rw [hread.pos, hs.pos, hr.pos, ← fadeFrom_hidden hhidden, after_fadeFrom]
    · show s'.comments = (_ :: s.comments).filter fun t => !chosen t
      rw [hs.comments, List.filter_cons_of_neg (by rw [hchosen]; simp)]
    · show (s'.cursor.skip (blankLines cs).length).rest.length < m
      rw [hrest, List.length_append] at hfuel
      rw [List.append_cancel_left (hread.rest.symm.trans hrest)]
      omega

end ScanState

/-- With blanks in the place of any of its comments a source without heredocs has the same tokens,
and the comments that are left. -/
theorem Token.scan_blankOut {source : Text} {tokens comments : List Token}
    (h : Token.scan source = .ok (tokens, comments)) (hplain : ∀ t ∈ tokens, t.kind ≠ .heredoc)
    (chosen : Token → Bool) :
    Token.scan (blankOut (comments.filter chosen) source) =
      .ok (tokens, comments.filter fun t => !chosen t) := by
  obtain ⟨⟨_, r⟩, hrun, hresult⟩ := bind_eq_ok.mp h
  obtain ⟨rfl, rfl⟩ := Prod.mk.inj (Except.ok.inj hresult)
  have hstart := ScanState.start_plain (Cursor.ofSource source)
  obtain ⟨hfading, rfl⟩ := (ScanState.run_plain hstart (ScanState.start_ready_source source) hrun
    hplain).fading chosen hstart (List.forall_mem_nil _)
  have hcover : blankOut (r.comments.reverse.filter chosen) source =
      fadeFrom (Token.cover (r.comments.filter chosen)) 0 source := by
    unfold blankOut
    congr 1
    funext i
    rw [Token.cover, List.filter_reverse, List.any_reverse, Token.cover]
  rw [hcover]
  have hfades : ScanState.Fades chosen (Token.cover (r.comments.filter chosen))
      (fadeFrom (Token.cover (r.comments.filter chosen)) 0 source)
      (.start none (.ofSource source)) (.start none (.ofSource (fadeFrom _ 0 source))) :=
    ⟨rfl, rfl, rfl, rfl, rfl, hstart, ScanState.start_plain _, .ofSource _⟩
  obtain ⟨r', hrun', hr'⟩ := hfading.rescans hfades (Nat.lt_succ_self _)
  refine bind_eq_ok.mpr ⟨_, hrun', ?_⟩
  show Except.ok (_, r'.comments.reverse) = _
  rw [hr'.tokens, hr'.pos, hr'.comments, List.filter_reverse]

/-- Comments do not matter to parsing: with blanks in the place of any of them a source without
heredocs has the same tokens and the same statements. -/
theorem Node.parse_blankOut {source : Text} {tree : Node} {tokens comments : List Token}
    (h : Node.parse source = .ok tree) (hscan : Token.scan source = .ok (tokens, comments))
    (hplain : ∀ t ∈ tokens, t.kind ≠ .heredoc) (chosen : Token → Bool) :
    Token.scan (blankOut (comments.filter chosen) source) =
        .ok (tokens, comments.filter fun t => !chosen t) ∧
      ∃ statements, tree = Node.plain ⟨0, source.length, 1, 1⟩
          (.manifest statements (comments.map Token.commentNode)) ∧
        Node.parse (blankOut (comments.filter chosen) source) =
          .ok (Node.plain ⟨0, source.length, 1, 1⟩ (.manifest statements
            ((comments.filter fun t => !chosen t).map Token.commentNode))) := by
  have hblank := Token.scan_blankOut hscan hplain chosen
  obtain ⟨p, hp, h⟩ := bind_eq_ok.mp h
  obtain rfl : p = (tokens, comments) := Except.ok.inj (hp.symm.trans hscan)
  obtain ⟨statements, hparse, htree⟩ := bind_eq_ok.mp h
  refine ⟨hblank, statements, (Except.ok.inj htree).symm, ?_⟩
  refine bind_eq_ok.mpr ⟨_, hblank, bind_eq_ok.mpr ⟨statements, hparse, ?_⟩⟩
  show Except.ok (Node.plain ⟨0, (blankOut _ source).length, 1, 1⟩ _) = _
  rw [blankOut, length_fadeFrom]

/-- The first comment of a division is made blanks, and the slash after it remains one. -/
theorem Node.parse_blankOut_division :
    ∃ tree tokens comments, Node.parse (Text.ofString "$a = 4 /* x */ / 2 # y / z") = .ok tree ∧
      Token.scan (Text.ofString "$a = 4 /* x */ / 2 # y / z") = .ok (tokens, comments) ∧
        Token.scan (Text.ofString "$a = 4         / 2 # y / z") =
            .ok (tokens, comments.filter fun t => !(t.text.head? == some (.char '/'))) ∧
          ∃ statements, tree = Node.plain ⟨0, 26, 1, 1⟩
              (.manifest statements (comments.map Token.commentNode)) ∧
            Node.parse (Text.ofString "$a = 4         / 2 # y / z") =
              .ok (Node.plain ⟨0, 26, 1, 1⟩ (.manifest statements
                ((comments.filter fun t => !(t.text.head? == some (.char '/'))).map
                  Token.commentNode))) := by
  have hparse :
      (Node.parse (Text.ofString "$a = 4 /* x */ / 2 # y / z")).toOption.map (fun _ => ()) =
      some () := by cbv
  have hscan : (Token.scan (Text.ofString "$a = 4 /* x */ / 2 # y / z")).toOption.map
      (fun p => (blankOut (p.2.filter fun t => t.text.head? == some (.char '/'))
          (Text.ofString "$a = 4 /* x */ / 2 # y / z"), p.1.all fun t => t.kind ≠ .heredoc)) =
        some (Text.ofString "$a = 4         / 2 # y / z", true) := by cbv
  obtain ⟨tree, hparse, -⟩ := exists_ok_of_map hparse
  obtain ⟨⟨tokens, comments⟩, hscan, hresult⟩ := exists_ok_of_map hscan
  obtain ⟨hblank, hplain⟩ := Prod.mk.inj hresult
  have hblanked := Node.parse_blankOut hparse hscan (by simpa using hplain)
    fun t => t.text.head? == some (.char '/')
  rw [hblank] at hblanked
  exact ⟨tree, tokens, comments, hparse, hscan, hblanked⟩

end ManifestTree
