import ManifestTree.Proofs.Conformance
import ManifestTree.Proofs.ScanSettling
import ManifestTree.Proofs.StatementSettling

/-!
# What can come of a parse

A parse answers a well-typed manifest or refuses the source, but for two things that have to do with
digits outside of ASCII.  A digit sign such as a superscript is taken for the start of a number that
is then not found, and an octal literal may hold an eight or a nine of another script, so that it
has no value.
-/

namespace ManifestTree

open Text

/-! ## Heredocs have bodies -/

/-- As many bodies as heredocs leave no heredoc without a body. -/
theorem ScanState.attachBodies_isSome {ts : List Token} {bodies : List HeredocBody}
    (h : ∀ t ∈ ts, t.Fresh) (hlen : ts.countP (fun t => t.kind = .heredoc) = bodies.length) :
    ∀ t ∈ attachBodies ts bodies, t.kind = .heredoc → t.body?.isSome := by
  induction ts generalizing bodies with
  | nil => simp [attachBodies]
  | cons t ts ih =>
    obtain ⟨kind, text, span, detail⟩ := t
    have hts := fun u hu => h u (List.mem_cons_of_mem _ hu)
    by_cases hk : kind = .heredoc
    · subst hk
      obtain ⟨tag, hd⟩ := (h _ List.mem_cons_self).waiting rfl
      obtain rfl : detail = .heredoc tag none := hd
      cases bodies with
      | nil => simp [Token.kind] at hlen
      | cons b bodies =>
        have hlen := ih hts (by simpa [Token.kind] using hlen)
        rw [attachBodies]
        exact List.forall_mem_cons.mpr ⟨fun _ => rfl, hlen⟩
    · have hlen : ts.countP (fun t => t.kind = .heredoc) = bodies.length := by
        simpa [Token.kind, hk] using hlen
      rw [attachBodies]
      · exact List.forall_mem_cons.mpr ⟨fun hk' => absurd hk' hk, ih hts hlen⟩
      · simp [hk]

theorem Token.scan_heredocs {source : Text} {tokens comments : List Token}
    (h : Token.scan source = .ok (tokens, comments)) :
    ∀ t ∈ tokens ++ (Token.deepAll tokens).flatMap Fragment.tokens, t.kind = .heredoc →
      t.body?.isSome := by
  have hregular := Token.scan_regular h
  obtain ⟨xs, hl⟩ := Token.scan_laidOut h
  obtain ⟨d, hlaid, -, htokens⟩ := hl.laid
  intro t ht hk
  rcases List.mem_append.mp ht with ht | ht
  · rw [htokens] at ht
    rcases List.mem_append.mp ht with ht | ht
    · exact ScanState.attachBodies_isSome hlaid.fresh hl.heredocs t ht hk
    · rw [List.mem_singleton.mp ht] at hk
      cases hk
  · -- Within interpolations there are no heredocs.
    obtain ⟨f, hf, ht⟩ := List.mem_flatMap.mp ht
    obtain ⟨u, hu, hf⟩ := Token.mem_deepAll.mp hf
    exact absurd hk (((hregular u hu).deep f hf).tokens t ht).1

/-! ## Outcomes -/

/-- How parsing a source may fail: the source is refused, a digit sign that is no decimal digit
stands where a number begins, or an octal literal of the source holds an eight or a nine of another
script. -/
def Failure.OfSource (source : Text) : Failure → Prop
  | .rejected _ => True
  | .digitSign span => DigitSignAt source span
  | .octalDigit text => text <:+: source ∧ Literal.ForeignOctal text
  | .exhausted => False

/-- Where all digits are ASCII digits, a source fails only by being refused. -/
theorem Failure.OfSource.refused {source : Text} {f : Failure} (h : f.OfSource source)
    (hascii : ∀ c ∈ source, isDigit c → isAsciiDigit c) : ∃ e, f = .rejected e := by
  have ascii_lt {c : CodePoint} (hc : isAsciiDigit c) : c.val < 0x80 ∧ c.val ≤ 0x39 := by
    simp only [isAsciiDigit, Bool.and_eq_true, decide_eq_true_eq] at hc
    have : c.val ≤ '9'.toNat := hc.2
    have : '9'.toNat = 57 := rfl
    omega
  cases f with
  | rejected e => exact ⟨e, rfl⟩
  | exhausted => exact h.elim
  | digitSign span =>
    obtain ⟨before, c, after, rfl, -, hdigit, hdecimal⟩ := h
    have hc := hascii c (by simp) hdigit
    simp [isDecimal, decimalValue?, ascii_lt hc, hc] at hdecimal
  | octalDigit text =>
    obtain ⟨hwithin, digits, rfl, c, hmem, v, hv, hle, h8, h9⟩ := h
    have hc := hascii c (hwithin.subset (List.mem_cons_of_mem _ hmem))
      (by simp [isDigit, isDecimal, hv])
    simp only [decimalValue?, (ascii_lt hc).1, if_true, hc, Option.some.injEq] at hv
    have hlast := (ascii_lt hc).2
    have hcases : c.val = 56 ∨ c.val = 57 := by omega
    rcases hcases with hcode | hcode
    · exact absurd (CodePoint.ext_val hcode) h8
    · exact absurd (CodePoint.ext_val hcode) h9

/-- The tokens of a source fail to parse as tokens may whose integers are such texts. -/
theorem Parse.tokens_error_of_numbered {source : Text} {tokens comments : List Token}
    (hscan : Token.scan source = .ok (tokens, comments)) {N : Text → Prop}
    (hN : ∀ t ∈ tokens, t.Numbered N) {f : Failure}
    (h : Parse.tokens tokens = .error f) : f.OfParsing N := by
  obtain ⟨xs, hl⟩ := Token.scan_laidOut hscan
  obtain ⟨p, htokens, hkinds⟩ := hl.ends
  have hmem : ∀ t ∈ tokens.dropLast, t ∈ tokens := fun t ht => List.dropLast_subset _ ht
  have hterminated : ∀ t ∈ tokens.dropLast, t.Terminated := fun t ht =>
    ((hl.sound t (hmem t ht)).closed (hkinds t ht)).terminated
  rw [htokens] at h
  exact Parse.tokens_error rfl hterminated (fun t ht => hN t (hmem t ht)) h

/-- The tokens of a source fail to parse as tokens may whose integers are numerals. -/
theorem Parse.tokens_error_of_scan {source : Text} {tokens comments : List Token}
    (hscan : Token.scan source = .ok (tokens, comments)) {f : Failure}
    (h : Parse.tokens tokens = .error f) : f.OfParsing (NumeralOf source) :=
  Parse.tokens_error_of_numbered hscan
    (fun t ht => (Token.scan_regular hscan t ht).numbered) h

/-- A parse that answers nothing fails in one of these ways. -/
theorem Node.parse_error {source : Text} {f : Failure}
    (hparse : Node.parse source = .error f) : f.OfSource source := by
  obtain h | ⟨⟨tokens, comments⟩, h, hrest⟩ := bind_eq_error.mp hparse
  · have hscan := Token.scan_scans source
    rw [h] at hscan
    cases f with
    | rejected => trivial
    | digitSign => exact hscan
    | octalDigit => exact hscan.elim
    | exhausted => exact hscan.elim
  obtain hrest | ⟨_, _, hrest⟩ := bind_eq_error.mp hrest
  · have hf := Parse.tokens_error_of_scan h hrest
    cases f with
    | rejected => trivial
    | digitSign => exact hf.elim
    | octalDigit text => exact ⟨hf.1.2, hf.1.1.foreignOctal hf.2⟩
    | exhausted => exact hf.elim
  · cases hrest

/-- Parsing any source answers a well-typed manifest or fails in one of these ways; it is refused
if it fails and all its digits are ASCII digits.  The parser never meets a heredoc without a
body. -/
theorem Node.parse_outcome (source : Text) :
    ((∃ tree, Node.parse source = .ok tree ∧ tree.kind = .manifest ∧ tree.WellTyped) ∨
      ∃ f, Node.parse source = .error f ∧ f.OfSource source) ∧
    ((∀ c ∈ source, isDigit c → isAsciiDigit c) →
      (∃ tree, Node.parse source = .ok tree) ∨ ∃ e, Node.parse source = .error (.rejected e)) ∧
    ∀ tokens comments, Token.scan source = .ok (tokens, comments) →
      ∀ t ∈ tokens ++ (Token.deepAll tokens).flatMap Fragment.tokens, t.kind = .heredoc →
        t.body?.isSome := by
  refine ⟨?_, fun hascii => ?_, fun tokens comments h => Token.scan_heredocs h⟩
  · cases hparse : Node.parse source with
    | ok tree =>
      obtain ⟨tokens, comments, statements, h⟩ := Node.parse_parsed hparse
      exact .inl ⟨tree, rfl, h.wellTyped⟩
    | error f => exact .inr ⟨f, rfl, Node.parse_error hparse⟩
  · cases hparse : Node.parse source with
    | ok tree => exact .inl ⟨tree, rfl⟩
    | error f =>
      obtain ⟨e, rfl⟩ := (Node.parse_error hparse).refused hascii
      exact .inr ⟨e, rfl⟩

/-- A superscript two, and a zero before an Arabic nine, are neither parsed nor refused. -/
theorem Node.parse_foreignDigits :
    Node.parse [.char '²'] = .error (.digitSign ⟨0, 1, 1, 1⟩) ∧
      Node.parse [.char '0', .char '٩'] = .error (.octalDigit [.char '0', .char '٩']) := by
  refine ⟨?_, ?_⟩
  · rfl
  · rfl

end ManifestTree
