import ManifestTree.Proofs.ForkedHeredocs

/-!
# The first closing line

`LineOf` says where a line stands in a text.  The search for a closing line looks at the lines of
the text from the first on, so it finds nothing just if no line closes, and otherwise the first line
that does.
-/

namespace ManifestTree

/-! ## Lines of a text -/

/-- The line stands in the text, between line feeds or the ends of the text. -/
structure LineOf (cs before line after : Text) : Prop where
  text : cs = before ++ (line ++ after)
  begins : ∀ c ∈ before.getLast?, c = '\n'
  ends : ∀ c ∈ after.head?, c = '\n'
  unbroken : .char '\n' ∉ line

namespace LineOf

variable {cs before line after text rest : Text}

/-- A text without line feeds is its only line. -/
theorem end_iff (h : .char '\n' ∉ cs) :
    LineOf cs before line after ↔ before = [] ∧ line = cs ∧ after = [] := by
  constructor
  · rintro ⟨rfl, hbegins, hends, -⟩
    simp only [List.mem_append, not_or] at h
    have hbefore : before = [] := by
      by_contra hne
      have hlast := List.getLast?_eq_some_getLast hne
      exact h.1 (hbegins _ hlast ▸ List.getLast_mem hne)
    have hafter : after = [] := by
      cases after with
      | nil => rfl
      | cons c after => exact absurd (hends c rfl ▸ List.mem_cons_self) h.2.2
    simp [hbefore, hafter]
  · rintro ⟨rfl, rfl, rfl⟩
    exact ⟨by simp, nofun, nofun, h⟩

/-- The line goes up to the next line feed. -/
theorem takeWhile_eq (h : LineOf cs before line after) :
    (line ++ after).takeWhile (· ≠ .char '\n') = line := by
  have hline : ∀ c ∈ line, decide (c ≠ '\n') = true := fun c hc =>
    decide_eq_true fun he => h.unbroken (he ▸ hc)
  rw [List.takeWhile_append_of_pos hline]
  cases after with
  | nil => simp
  | cons c after => simp [h.ends c rfl]

/-- A text breaks at its first line feed in one way. -/
theorem break_unique {text text' rest rest' : Text} (h : .char '\n' ∉ text)
    (h' : .char '\n' ∉ text')
    (heq : text ++ .char '\n' :: rest = text' ++ .char '\n' :: rest') :
    text = text' ∧ rest = rest' := by
  have hsplit := splitLine_line h rest
  rw [heq, splitLine_line h' rest', Prod.mk.injEq, Option.some.injEq] at hsplit
  exact ⟨hsplit.1.symm, hsplit.2.symm⟩

/-- The lines of a text are the first one and those after its line feed. -/
theorem line_iff (h : .char '\n' ∉ text) : LineOf (text ++ .char '\n' :: rest) before line after ↔
    (before = [] ∧ line = text ∧ after = .char '\n' :: rest) ∨
      ∃ front, before = text ++ .char '\n' :: front ∧ LineOf rest front line after := by
  constructor
  · rintro ⟨htext, hbegins, hends, hunbroken⟩
    cases hlast : before.getLast? with
    | none =>
      obtain rfl := List.getLast?_eq_none_iff.mp hlast
      cases after with
      | nil =>
        rw [List.nil_append, List.append_nil] at htext
        exact absurd (htext ▸ List.mem_append_right _ List.mem_cons_self) hunbroken
      | cons c after =>
        obtain rfl := hends c rfl
        obtain ⟨rfl, rfl⟩ := break_unique h hunbroken htext
        exact .inl ⟨rfl, rfl, rfl⟩
    | some c =>
      obtain rfl := hbegins c hlast
      obtain ⟨first, front, rfl, hfirst⟩ :=
        List.eq_append_cons_of_mem (List.mem_of_getLast? hlast)
      rw [List.append_assoc, List.cons_append] at htext
      obtain ⟨rfl, rfl⟩ := break_unique h hfirst htext
      refine .inr ⟨front, rfl, rfl, fun c hc => hbegins c ?_, hends, hunbroken⟩
      rw [List.getLast?_append, List.getLast?_cons, hc]
      rfl
  · rintro (⟨rfl, rfl, rfl⟩ | ⟨front, rfl, htext, hbegins, hends, hunbroken⟩)
    · exact ⟨rfl, nofun, fun c hc => (Option.some.inj hc).symm, h⟩
    · refine ⟨by simp [htext], fun c hc => ?_, hends, hunbroken⟩
      rw [List.getLast?_append, List.getLast?_cons] at hc
      cases hlast : front.getLast? with
      | none => simpa [hlast, eq_comm] using hc
      | some d =>
        have hd := hbegins d hlast
        simpa [hlast, hd, eq_comm] using hc

end LineOf

/-! ## The search -/

/-- The first line of a text that closes a heredoc, with what stands around the terminator in it. -/
structure FirstClosing (terminator cs before line after : Text) (p : ClosingParts) :
    Prop where
  lineOf : LineOf cs before line after
  reads : p.Reads terminator line
  first : ∀ front line' rest, LineOf cs front line' rest → front.length < before.length →
    ¬ IsClosingLine terminator line'

/-- There is but one first closing line, and one way to read it. -/
theorem FirstClosing.unique {terminator cs before line after before' line' after' : Text}
    {p p' : ClosingParts} (ht : PlainTerminator terminator)
    (h : FirstClosing terminator cs before line after p)
    (h' : FirstClosing terminator cs before' line' after' p') :
    before = before' ∧ line = line' ∧ after = after' ∧
      p.closing terminator = p'.closing terminator := by
  have hlength : before.length = before'.length := by
    by_contra hne
    rcases Nat.lt_or_gt_of_ne hne with hlt | hlt
    · exact h'.first _ _ _ h.lineOf hlt ⟨p, h.reads⟩
    · exact h.first _ _ _ h'.lineOf hlt ⟨p', h'.reads⟩
  obtain ⟨rfl, htail⟩ := List.append_inj (h.lineOf.text.symm.trans h'.lineOf.text) hlength
  have hline : line = line' := by
    rw [← h.lineOf.takeWhile_eq, htail, h'.lineOf.takeWhile_eq]
  subst hline
  refine ⟨rfl, rfl, List.append_cancel_left htail, ?_⟩
  exact Option.some.inj ((h.reads.closingText? ht).symm.trans (h'.reads.closingText? ht))

/-- Where the search looks at a line, it stops there or goes on. -/
theorem splitAtClosing?_cons {terminator : Text} (ht : PlainTerminator terminator)
    (line : SourceLine) (more : List SourceLine) :
    (∃ p : ClosingParts, p.Reads terminator line.text ∧
      splitAtClosing? terminator (line :: more) = some ([], line, p.closing terminator)) ∨
    ¬ IsClosingLine terminator line.text ∧ splitAtClosing? terminator (line :: more) =
      (splitAtClosing? terminator more).map fun p => (line :: p.1, p.2) := by
  rw [splitAtClosing?]
  cases hc : closingText? line.text with
  | none =>
    refine .inr ⟨?_, rfl⟩
    rintro ⟨p, hp⟩
    rw [hp.closingText? ht] at hc
    cases hc
  | some closing =>
    dsimp only
    by_cases htext : closing.text = terminator
    · obtain ⟨p, hp, hclosing⟩ := closingText?_reads hc
      rw [htext] at hp hclosing
      exact .inl ⟨p, hp, by rw [if_pos htext, hclosing]⟩
    · refine .inr ⟨?_, if_neg htext⟩
      rintro ⟨p, hp⟩
      refine htext ?_
      rw [hp.closingText? ht] at hc
      cases hc
      rfl

/-- The search finds nothing and no line of the text closes, or it finds the first line that
does. -/
theorem splitAtClosing?_first {terminator : Text} (ht : PlainTerminator terminator)
    (c : Cursor) :
    (splitAtClosing? terminator c.lines = none ∧
      ∀ before line after, LineOf c.rest before line after → ¬ IsClosingLine terminator line) ∨
    ∃ before line after p lines, FirstClosing terminator c.rest before line after p ∧
      LinesTo c lines ⟨c.pos.after before, line ++ after⟩ ∧
      splitAtClosing? terminator c.lines =
        some (lines, ⟨⟨c.pos.after before, line ++ after⟩, line⟩, p.closing terminator) := by
  induction hlength : c.rest.length using Nat.strongRecOn generalizing c with
  | ind n ih =>
    by_cases hline : .char '\n' ∈ c.rest
    · obtain ⟨text, rest, hrest, htext⟩ := List.eq_append_cons_of_mem hline
      have hread : c.Reads (text ++ [.char '\n']) ⟨c.pos.after (text ++ [.char '\n']), rest⟩ :=
        ⟨by rw [hrest, List.append_assoc]; rfl, rfl⟩
      rw [Cursor.lines_line hrest htext]
      obtain ⟨p, hp, hsplit⟩ | ⟨hopen, hsplit⟩ := splitAtClosing?_cons ht ⟨c, text⟩
        (Cursor.lines ⟨c.pos.after (text ++ [.char '\n']), rest⟩)
      · have hc : (⟨c.pos.after [], text ++ .char '\n' :: rest⟩ : Cursor) = c := by
          rw [← hrest]
          rfl
        refine .inr ⟨[], text, .char '\n' :: rest, p, [], ⟨?_, hp, nofun⟩, ?_, ?_⟩
        · rw [hrest]
          exact (LineOf.line_iff htext).mpr (.inl ⟨rfl, rfl, rfl⟩)
        · rw [hc]
          exact .nil c
        · rw [hc, hsplit]
      · -- The first line does not close, so the search goes on after it.
        have open_first {before line after : Text} (h : LineOf c.rest before line after)
            (hlater : ∀ front, before = text ++ .char '\n' :: front → LineOf rest front line after →
              ¬ IsClosingLine terminator line) : ¬ IsClosingLine terminator line := by
          rw [hrest, LineOf.line_iff htext] at h
          obtain ⟨-, rfl, -⟩ | ⟨front, hfront, h⟩ := h
          · exact hopen
          · exact hlater front hfront h
        obtain ⟨hnone, hall⟩ | ⟨before, line, after, p, lines, hfirst, hlines, hsome⟩ :=
          ih rest.length (by rw [← hlength, hrest]; simp; omega) ⟨_, rest⟩ rfl
        · refine .inl ⟨by rw [hsplit, hnone]; rfl, fun before line after h => ?_⟩
          exact open_first h fun front _ h => hall front line after h
        · have hpos : (c.pos.after (text ++ [.char '\n'])).after before =
              c.pos.after (text ++ .char '\n' :: before) := by
            rw [← Position.after_append, List.append_assoc]
            rfl
          rw [hpos] at hlines hsome
          refine .inr ⟨text ++ .char '\n' :: before, line, after, p, ⟨c, text⟩ :: lines,
            ⟨?_, hfirst.reads, fun front line' rest' h hlt => ?_⟩, .cons htext hread hlines, ?_⟩
          · rw [hrest]
            exact (LineOf.line_iff htext).mpr (.inr ⟨before, rfl, hfirst.lineOf⟩)
          · refine open_first h fun front' hfront h' => hfirst.first front' line' rest' h' ?_
            rw [hfront] at hlt
            simpa using hlt
          · rw [hsplit, hsome]
            rfl
    · rw [Cursor.lines_end hline]
      obtain ⟨p, hp, hsplit⟩ | ⟨hopen, hsplit⟩ := splitAtClosing?_cons ht ⟨c, c.rest⟩ []
      · have hc : (⟨c.pos.after [], c.rest ++ []⟩ : Cursor) = c := by rw [List.append_nil]; rfl
        refine .inr ⟨[], c.rest, [], p, [],
          ⟨(LineOf.end_iff hline).mpr ⟨rfl, rfl, rfl⟩, hp, nofun⟩, ?_, ?_⟩
        · rw [hc]
          exact .nil c
        · rw [hc, hsplit]
      · refine .inl ⟨hsplit, fun before line after h => ?_⟩
        obtain ⟨-, rfl, -⟩ := (LineOf.end_iff hline).mp h
        exact hopen

end ManifestTree
