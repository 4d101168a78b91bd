import ManifestTree.Proofs.ForkedScans
import ManifestTree.Proofs.ParseFailures

/-!
# The failure that a parse reports

A source is scanned to its end before its tokens are parsed.  So the failure of a scan is the one
that is reported, even where the tokens before it could not be parsed.  The sorts of problems tell
the two apart: a scan fails for a lexical problem or at a digit sign, and a parse of tokens never
does.
-/

namespace ManifestTree

/-- A scan fails like this, and a parse of tokens does not. -/
def Failure.isLexical : Failure → Bool
  | .rejected e => e.kind.isLexical
  | .digitSign _ => true
  | .octalDigit _ | .exhausted => false

theorem Failure.OfScanning.isLexical {source : Text} {f : Failure}
    (h : f.OfScanning source) : f.isLexical := by
  cases f with
  | rejected e => exact h
  | digitSign span => rfl
  | octalDigit text => exact h.elim
  | exhausted => exact h.elim

theorem Failure.OfParsing.not_isLexical {N : Text → Prop} {f : Failure}
    (h : f.OfParsing N) : f.isLexical = false := by
  cases f with
  | rejected e => exact h
  | digitSign span => exact h.elim
  | octalDigit text => rfl
  | exhausted => rfl

/-! ## How far a scan comes -/

namespace ScanState

/-- The state that a run comes to before it stops or fails, with the fuel left after its last
step. -/
def reached : (fuel : Nat) → ScanState → ScanState × Nat
  | 0, s => (s, 0)
  | fuel + 1, s =>
    match s.step (nestedRun fuel) with
    | .ok (some s) => reached fuel s
    | _ => (s, fuel)

variable {source : Text} {s : ScanState}

/-- The next step of a scan fails, or the scan stops there and its end fails, where so much fuel is
left for the insides of interpolations. -/
def FailsWith (s : ScanState) (left : Nat) (f : Failure) : Prop :=
  s.step (nestedRun left) = .error f ∨
    s.step (nestedRun left) = .ok none ∧ s.finish (nestedRun left) = .error f

/-- A run that fails does so at the state that it has come to. -/
theorem run_error {fuel : Nat} {f : Failure} (h : run fuel s = .error f)
    (hf : f ≠ .exhausted) : (reached fuel s).1.FailsWith (reached fuel s).2 f := by
  induction fuel generalizing s with
  | zero =>
    cases h
    exact absurd rfl hf
  | succ fuel ih =>
    unfold reached
    obtain hstep | ⟨r, hstep, hrest⟩ := bind_eq_error.mp
      (show s.step (nestedRun fuel) >>= _ = _ from h)
    · rw [hstep]
      exact .inl hstep
    · rw [hstep]
      cases r with
      | none => exact .inr ⟨hstep, hrest⟩
      | some s' => exact ih hrest

/-- A run lays stretches up to the state that it comes to, whose tokens and bodies are regular. -/
theorem reached_lays {fuel : Nat} (hready : s.Ready source)
    (hat : s.cursor.rest ≠ [] → Cursor.At source s.cursor) (hcarries : s.Carries source)
    (hfuel : s.cursor.rest.length < fuel) :
    (∃ xs, s.Lays source xs (reached fuel s).1) ∧ (reached fuel s).1.Carries source := by
  induction fuel generalizing s with
  | zero => exact absurd hfuel (Nat.not_lt_zero _)
  | succ fuel ih =>
    have hn := nestedRun_sound fuel
    have hgoes := step_scans hn (nestedRun_settles source fuel) hat (by omega)
    unfold reached
    split
    · next s' hstep =>
      rw [hstep] at hgoes
      have hgoes := hgoes s' rfl
      obtain ⟨xs, hlays⟩ := step_lays hn hready hstep
      obtain ⟨cs, hpasses⟩ := hlays.laid.passes
      have hshorter := hgoes.shorter
      obtain ⟨⟨ys, hmore⟩, hends⟩ := ih (hlays.ready hready) (hpasses.at hat)
        (hgoes.carries hcarries) (by omega)
      exact ⟨⟨xs ++ ys, hlays.trans hmore⟩, hends⟩
    · exact ⟨⟨[], .refl s⟩, hcarries⟩

end ScanState

/-- The state that the scan of a source comes to before it stops or fails. -/
def ScanState.ofSource (source : Text) : ScanState :=
  (reached (source.length + 1) (start none (Cursor.ofSource source))).1

/-- The fuel that the scan of a source has left there. -/
def ScanState.leftOver (source : Text) : Nat :=
  (reached (source.length + 1) (start none (Cursor.ofSource source))).2

/-- The tokens of a source up to where its scan stops or fails, ending with an end of input. -/
def Token.scannedBefore (source : Text) : List Token :=
  let s := ScanState.ofSource source
  ScanState.attachBodies s.tokens.reverse s.bodies ++ [Token.endAt s.cursor.pos]

/-- The tokens before the place where a scan stops or fails are one end of input after tokens that
stand there one after the other, and parsing them does not fail lexically. -/
theorem Token.scannedBefore_spec (source : Text) :
    let p := (ScanState.ofSource source).cursor.pos
    ∃ ts, Token.scannedBefore source = ts ++ [Token.endAt p] ∧
      (∀ t ∈ ts, t.Stands source 0 p.offset) ∧
      (ts.Pairwise fun t u => t.span.stop ≤ u.span.start) ∧
      ∀ f, Parse.tokens (ts ++ [Token.endAt p]) = .error f → f.isLexical = false := by
  have hready := ScanState.start_ready_source source
  have hreached := ScanState.reached_lays hready (fun _ => Cursor.At.ofSource source)
    (ScanState.start_carries source none _) (Nat.lt_succ_self _)
  obtain ⟨⟨xs, hlays⟩, hcarries⟩ : (∃ xs, (ScanState.start none (Cursor.ofSource source)).Lays
      source xs (ScanState.ofSource source)) ∧ (ScanState.ofSource source).Carries source :=
    hreached
  have htokens : (ScanState.ofSource source).tokens.reverse = xs.filterMap Stretch.token? := by
    rw [hlays.tokens]
    simp [ScanState.start]
  have hbodies : (ScanState.ofSource source).bodies = xs.filterMap Stretch.body? := hlays.bodies
  have hattached := ScanState.attachBodies_attached hlays.laid.fresh
    (List.Subset.refl (xs.filterMap Stretch.body?))
  have hbefore : Token.scannedBefore source =
      ScanState.attachBodies (xs.filterMap Stretch.token?) (xs.filterMap Stretch.body?) ++
        [Token.endAt (ScanState.ofSource source).cursor.pos] := by
    rw [Token.scannedBefore, htokens, hbodies]
  have hfresh : ∀ t ∈ xs.filterMap Stretch.token?, t.Regular source := by
    intro t ht
    exact hcarries.tokens t (List.mem_reverse.mp (htokens ▸ ht))
  have hresolved : ∀ b ∈ xs.filterMap Stretch.body?, ∀ f ∈ b.deepFragments, f.Regular source := by
    intro b hb
    exact hcarries.bodies b (hbodies ▸ hb)
  have hregular := ScanState.attachBodies_regular hfresh hresolved
  obtain ⟨hstands, hordered⟩ := hlays.laid.attached (fun _ => Cursor.At.ofSource source) hattached
  refine ⟨_, hbefore, hstands, hordered, fun f hf => ?_⟩
  have hnumbered := fun t ht => (hregular t ht).numbered
  have herror := Parse.tokens_error rfl (fun t ht => Token.Closed.terminated ?_) hnumbered hf
  · exact herror.not_isLexical
  obtain ⟨u, hu, ha⟩ := Token.attached_of_mem hattached t ht
  have hu := hlays.laid.fresh u hu
  refine (ha.sound hu.sound fun b hb => ?_).closed (ha.same_place.1 ▸ hu.notEnd)
  obtain ⟨e, hres, -⟩ := hlays.laid.resolved b hb
  exact hres.sound

/-- A scan fails lexically, and where it has come to. -/
theorem Token.scan_error {source : Text} {f : Failure} (h : Token.scan source = .error f) :
    f.isLexical ∧ (ScanState.ofSource source).FailsWith (ScanState.leftOver source) f := by
  have hscan := Token.scan_scans source
  rw [h] at hscan
  have hf : f.OfScanning source := hscan
  refine ⟨hf.isLexical, ?_⟩
  unfold Token.scan at h
  obtain hrun | ⟨r, -, hrest⟩ := bind_eq_error.mp h
  · refine ScanState.run_error hrun ?_
    rintro rfl
    exact hf
  · cases hrest

/-- A parse fails lexically just if the scan fails, and then with the failure of the scan; it fails
otherwise just if the scan answers and the tokens do not parse.  A scan fails where it has come to,
and whatever comes of parsing the tokens before is not reported then. -/
theorem Node.parse_reports (source : Text) :
    (∀ f, Token.scan source = .error f ↔ Node.parse source = .error f ∧ f.isLexical) ∧
    (∀ f, f.isLexical = false →
      (Node.parse source = .error f ↔ ∃ tokens comments,
        Token.scan source = .ok (tokens, comments) ∧ Parse.tokens tokens = .error f)) ∧
    ∃ ts p, Token.scannedBefore source = ts ++ [Token.endAt p] ∧
      (∀ t ∈ ts, t.Stands source 0 p.offset) ∧
      (ts.Pairwise fun t u => t.span.stop ≤ u.span.start) ∧
      ∀ f, Token.scan source = .error f →
        (ScanState.ofSource source).FailsWith (ScanState.leftOver source) f ∧
        ∀ e, Parse.tokens (Token.scannedBefore source) = .error e →
          e ≠ f ∧ Node.parse source ≠ .error e := by
  have hscanned {f : Failure} (h : Token.scan source = .error f) :
      Node.parse source = .error f := by
    simp [Node.parse, h, Bind.bind, Except.bind]
  have hparsed {f : Failure} (h : Node.parse source = .error f) :
      Token.scan source = .error f ∨ ∃ tokens comments,
        Token.scan source = .ok (tokens, comments) ∧ Parse.tokens tokens = .error f := by
    obtain h | ⟨⟨tokens, comments⟩, h, hrest⟩ := bind_eq_error.mp h
    · exact .inl h
    obtain hrest | ⟨_, _, hrest⟩ := bind_eq_error.mp hrest
    · exact .inr ⟨tokens, comments, h, hrest⟩
    · cases hrest
  refine ⟨fun f => ?_, fun f hf => ?_, ?_⟩
  · constructor
    · intro h
      exact ⟨hscanned h, (Token.scan_error h).1⟩
    · rintro ⟨h, hf⟩
      rcases hparsed h with h | ⟨tokens, comments, hscan, h⟩
      · exact h
      · have := (Parse.tokens_error_of_scan hscan h).not_isLexical
        simp [hf] at this
  · constructor
    · intro h
      rcases hparsed h with h | h
      · have := (Token.scan_error h).1
        simp [hf] at this
      · exact h
    · rintro ⟨tokens, comments, hscan, h⟩
      simp [Node.parse, hscan, h, Bind.bind, Except.bind]
  · obtain ⟨ts, hbefore, hstands, hordered, hparse⟩ := Token.scannedBefore_spec source
    refine ⟨ts, _, hbefore, hstands, hordered, fun f h => ⟨(Token.scan_error h).2, fun e he => ?_⟩⟩
    have hne : e ≠ f := by
      rintro rfl
      have := hparse e (hbefore ▸ he)
      simp [(Token.scan_error h).1] at this
    refine ⟨hne, ?_⟩
    rw [hscanned h]
    exact fun heq => hne (Except.error.inj heq).symm

/-- A bracket that closes nothing stands before a quote that opens a string without an end.  The
tokens before the quote do not parse, and the string is what is reported. -/
theorem Node.parse_laterFailure :
    Token.scan (Text.ofString ") \"") = .error (.rejected ⟨.unterminatedString, ⟨2, 3, 1, 3⟩⟩) ∧
      Token.scannedBefore (Text.ofString ") \"") =
        [.mk (.symbol .rightParen) [.char ')'] ⟨0, 1, 1, 1⟩ .plain, Token.endAt ⟨2, 1, 3⟩] ∧
      Parse.tokens (Token.scannedBefore (Text.ofString ") \"")) =
        .error (.rejected ⟨.unexpectedToken [.char ')'] .expression, ⟨0, 1, 1, 1⟩⟩) ∧
      Node.parse (Text.ofString ") \"") =
          .error (.rejected ⟨.unterminatedString, ⟨2, 3, 1, 3⟩⟩) := by
  refine ⟨?_, ?_, ?_, ?_⟩
  · rfl
  · rfl
  · rfl
  · rfl

end ManifestTree
