import ManifestTree.Proofs.ScanRefusals
import ManifestTree.Proofs.SourceEnd
import ManifestTree.Proofs.StatementRefusals

/-!
# Where a source is refused

A refusal of a scan points at what the scan was about, and one of a parse at a token.  Tokens stand
where their spans say, so a refusal points into the source, with the line and the column of its
place.  The one exception is an end of input after a closing line that ends the source: it is
counted one line too far.
-/

namespace ManifestTree

variable {source : Text}

/-! ## Tokens as places -/

theorem Fragment.Located.tokens_within {f : Fragment} (h : f.Located source) :
    ∀ t ∈ f.tokens, t.span.Within source := by
  intro t ht
  refine ⟨(h.tokens t ht).correct, ?_⟩
  obtain ⟨inside, us, htext, hts, hrow, -, hwithin⟩ :=
    h.interpolation (Fragment.piece_of_mem_tokens ht)
  have hends := h.covers.correct.ends
  have hstart := h.covers.start_eq
  have hstop := h.covers.stop_eq
  rw [htext] at hstop
  simp only [List.length_append, List.length_cons, List.length_nil] at hstop
  rw [hts] at ht
  rcases List.mem_append.mp ht with ht | ht
  · have hnonempty := (hrow.located t ht).covers.nonempty (hrow.located t ht).nonempty
    have := (hwithin t ht).2
    omega
  · -- The end of input stands at the closing brace.
    have hend :
        (Token.endAt (f.span.position.after ([.char '$', .char '\x7b'] ++ inside))).span.start =
        (f.span.position.after ([.char '$', .char '\x7b'] ++ inside)).offset := rfl
    rw [List.mem_singleton.mp ht, hend, Position.after_offset]
    simp only [List.length_append, List.length_cons, List.length_nil]
    omega

/-- A located token and the tokens within it begin within the source. -/
theorem Token.Located.marked {P : Span → Prop} (hP : ∀ s : Span, s.Within source → P s)
    {t : Token} (h : t.Located source) : t.Marked P := by
  refine ⟨List.forall_mem_cons.mpr ⟨hP _ (h.covers.within h.nonempty), fun u hu => ?_⟩,
    fun f hf ts hp => ?_⟩
  · obtain ⟨f, hf, hu⟩ := List.mem_flatMap.mp hu
    exact hP _ ((h.deep f hf).tokens_within u hu)
  · obtain ⟨inside, us, -, hts, -⟩ := (h.deep f hf).interpolation hp
    rw [hts]
    exact List.append_ne_nil_of_right_ne_nil _ (List.cons_ne_nil _ _)

theorem Token.endAt_marked {P : Span → Prop} {p : Position} (h : P (Token.endAt p).span) :
    (Token.endAt p).Marked P := by
  refine ⟨?_, ?_⟩
  · exact List.forall_mem_singleton.mpr h
  · exact List.forall_mem_nil _

/-! ## Refusals -/

/-- Tokens of a scan that do not parse are refused within the source, or at the end of input. -/
theorem Token.scan_tokens_refusal {tokens comments : List Token} {p : Position}
    (hscan : Token.scan source = .ok (tokens, comments))
    (hends : tokens = tokens.dropLast ++ [Token.endAt p]) {e : SyntaxError}
    (h : Parse.tokens tokens = .error (.rejected e)) :
    e.span.Within source ∨ e.span = (Token.endAt p).span := by
  have hmarked : ∀ t ∈ tokens,
      t.Marked fun s => s.Within source ∨ s = (Token.endAt p).span := by
    rw [hends]
    refine List.forall_mem_append.mpr ⟨fun t ht => ?_, List.forall_mem_singleton.mpr ?_⟩
    · exact ((Token.scan_row hscan).1.located t ht).marked fun s hs => .inl hs
    · exact Token.endAt_marked (.inr rfl)
  have hne : tokens ≠ [] := by
    rw [hends]
    exact List.append_ne_nil_of_right_ne_nil _ (List.cons_ne_nil _ _)
  exact Parse.tokens_refused hne hmarked h

/-- The source ends with the closing line of a heredoc, without a line feed. -/
def ClosesSource (source : Text) : Prop :=
  ∃ tokens comments, Token.scan source = .ok (tokens, comments) ∧ Token.CloseSource source tokens

theorem Node.parse_refusal {e : SyntaxError} (h : Node.parse source = .error (.rejected e)) :
    e.span.Within source ∨
      (¬ ClosesSource source ∧ e.span = (Token.endAt (Position.start.after source)).span) ∨
      (ClosesSource source ∧
        e.span = ⟨source.length, source.length, source.count (.char '\n') + 2, 1⟩) := by
  obtain hscan | ⟨⟨tokens, comments⟩, hscan, h⟩ := bind_eq_error.mp h
  · exact .inl (Token.scan_refuses source e hscan)
  obtain h | ⟨_, _, h⟩ := bind_eq_error.mp h
  case inr => cases h
  obtain ⟨xs, hl⟩ := Token.scan_laidOut hscan
  obtain ⟨p, hends, hplace⟩ := hl.endOfInput
  rcases Token.scan_tokens_refusal hscan hends h with hwithin | hspan
  · exact .inl hwithin
  rcases hplace with ⟨hcloses, hp⟩ | ⟨hcloses, hp⟩
  · refine .inr (.inl ⟨?_, by rw [hspan, hp]⟩)
    rintro ⟨tokens', comments', hscan', hcloses'⟩
    rw [hscan] at hscan'
    cases hscan'
    exact hcloses hcloses'
  · refine .inr (.inr ⟨⟨tokens, comments, hscan, hcloses⟩, ?_⟩)
    rw [hspan, hp, Token.endAt, Token.span, Span.sized]
    simp

/-- A refusal points into the source, and its line and column are those of its place, but for an end
of input after a closing line that ends the source: there the line is one too many, and the column
is the first. -/
theorem Node.parse_error_span {e : SyntaxError} (h : Node.parse source = .error (.rejected e)) :
    (0 ≤ e.span.start ∧ e.span.start ≤ e.span.stop ∧ e.span.stop ≤ source.length) ∧
      (e.span.Correct source ↔ ¬ (e.span.start = source.length ∧ ClosesSource source)) ∧
      (e.span.start = source.length → ClosesSource source →
        e.span = ⟨source.length, source.length, source.count (.char '\n') + 2, 1⟩) := by
  have right (hcorrect : e.span.Correct source)
      (hplace : ¬ (e.span.start = source.length ∧ ClosesSource source)) :
      (0 ≤ e.span.start ∧ e.span.start ≤ e.span.stop ∧ e.span.stop ≤ source.length) ∧
        (e.span.Correct source ↔ ¬ (e.span.start = source.length ∧ ClosesSource source)) ∧
        (e.span.start = source.length → ClosesSource source →
          e.span = ⟨source.length, source.length, source.count (.char '\n') + 2, 1⟩) :=
    ⟨⟨hcorrect.starts, hcorrect.ordered, hcorrect.ends⟩, ⟨fun _ => hplace, fun _ => hcorrect⟩,
      fun hstart hcloses => absurd ⟨hstart, hcloses⟩ hplace⟩
  rcases Node.parse_refusal h with hwithin | ⟨hcloses, hspan⟩ | ⟨hcloses, hspan⟩
  · refine right hwithin.correct ?_
    rintro ⟨hstart, -⟩
    have := hwithin.begins
    omega
  · have hend : (Position.start.after source).Holds source [] :=
      ⟨source, [], by simp, rfl⟩
    have hcovers : (Token.endAt (Position.start.after source)).span.Covers source [] :=
      Span.covers_between hend
    exact right (hspan ▸ hcovers.correct) fun hplace => hcloses hplace.2
  · have hstart : e.span.start = source.length := by rw [hspan]
    have hstop : e.span.stop = source.length := by rw [hspan]
    refine ⟨by omega, ⟨fun hcorrect => ?_, fun hplace => absurd ⟨hstart, hcloses⟩ hplace⟩,
      fun _ _ => hspan⟩
    -- The line of a correct span is one more than the line feeds before it.
    have hline := hcorrect.line
    rw [hstart, hspan] at hline
    simp only [Int.toNat_natCast, List.take_length] at hline
    omega

/-- A heredoc tag for a condition, whose closing line ends with a line feed: the end of input is
found where a body should open, on the line after. -/
theorem Node.parse_error_span_bodyless :
    Node.parse (Text.ofString "if @(END)\nfoo\nEND\n") =
        .error (.rejected ⟨.missingBody [], ⟨18, 18, 4, 1⟩⟩) ∧
      (Span.Correct (Text.ofString "if @(END)\nfoo\nEND\n") ⟨18, 18, 4, 1⟩ ↔
        ¬ ((18 : Int) = (Text.ofString "if @(END)\nfoo\nEND\n").length ∧
          ClosesSource (Text.ofString "if @(END)\nfoo\nEND\n"))) := by
  have hparse : Node.parse (Text.ofString "if @(END)\nfoo\nEND\n") =
      .error (.rejected ⟨.missingBody [], ⟨18, 18, 4, 1⟩⟩) := by cbv
  exact ⟨hparse, (Node.parse_error_span hparse).2.1⟩

/-- The same without the line feed: the end of input is reported at the start of a line that the
source does not have. -/
theorem Node.parse_error_pastEnd :
    Node.parse (Text.ofString "if @(END)\nfoo\nEND") =
        .error (.rejected ⟨.missingBody [], ⟨17, 17, 4, 1⟩⟩) ∧
      (Text.ofString "if @(END)\nfoo\nEND").length = 17 ∧
      ¬ Span.Correct (Text.ofString "if @(END)\nfoo\nEND") ⟨17, 17, 4, 1⟩ := by
  refine ⟨?_, ?_, fun h => ?_⟩
  · cbv
  · rfl
  · have := h.line
    revert this
    decide

end ManifestTree
