import ManifestTree.Proofs.HeredocClosings
import ManifestTree.Proofs.ParseFailures

/-!
# Scans and parses end

Scans and parses are bounded, and the bounds are never met.  A scan reads a character with every
step, the inside of an interpolation begins after its opener, and the body of a heredoc takes the
heredoc from the queue and ends no earlier than it begins.  A parser that answers has read a token,
and none reads the end of input.
-/

namespace ManifestTree

/-! ## Scans -/

namespace ScanState

/-- A run with some fuel comes to a state, with the fuel left there. -/
inductive Visits : Nat → ScanState → Nat → ScanState → Prop
  | here (fuel : Nat) (s : ScanState) : Visits fuel s fuel s
  | next {fuel left : Nat} {s s₁ s' : ScanState} : s.step (nestedRun fuel) = .ok (some s₁) →
      Visits fuel s₁ left s' → Visits (fuel + 1) s left s'

variable {source : Text} {s s' : ScanState} {fuel left : Nat}

/-- A run goes on from each state that it comes to. -/
theorem Visits.run_eq (h : Visits fuel s left s') : run fuel s = run left s' := by
  induction h with
  | here => rfl
  | next hstep _ ih => rw [run_of_step hstep, ih]

/-- A step reads a character. -/
theorem step_progress (hs : s.Ready source) (hat : s.cursor.rest ≠ [] → Cursor.At source s.cursor)
    (hlen : s.cursor.rest.length ≤ fuel) (h : s.step (nestedRun fuel) = .ok (some s')) :
    s'.cursor.rest.length < s.cursor.rest.length ∧ s.cursor.offset < s'.cursor.offset ∧
      s'.Ready source ∧ (s'.cursor.rest ≠ [] → Cursor.At source s'.cursor) := by
  have hscans := step_scans (nestedRun_sound fuel) (nestedRun_settles source fuel) hat hlen
  rw [h] at hscans
  have hshorter := (hscans s' rfl).shorter
  obtain ⟨xs, hlays⟩ := step_lays (nestedRun_sound fuel) hs h
  obtain ⟨cs, hpasses⟩ := hlays.laid.passes
  have hlength : 0 < cs.length := by
    have := congrArg List.length hpasses.rest
    rw [List.length_append] at this
    omega
  have hoffset := hpasses.offset
  exact ⟨hshorter, by omega, hlays.ready hs, hpasses.at hat⟩

/-- A run that begins with more fuel than characters has more fuel than characters left at every
state that it comes to. -/
theorem Visits.progress (h : Visits fuel s left s') (hs : s.Ready source)
    (hat : s.cursor.rest ≠ [] → Cursor.At source s.cursor) (hfuel : s.cursor.rest.length < fuel) :
    s'.cursor.rest.length < left ∧ s'.Ready source ∧
      (s'.cursor.rest ≠ [] → Cursor.At source s'.cursor) := by
  induction h with
  | here => exact ⟨hfuel, hs, hat⟩
  | next hstep _ ih =>
    obtain ⟨hlt, -, hs₁, hat₁⟩ := step_progress hs hat (Nat.le_of_lt_succ hfuel) hstep
    exact ih hs₁ hat₁ (by omega)

theorem start_ready_at {c : Cursor} (opener : Option Span) (hat : Cursor.At source c) :
    (start opener c).Ready source where
  placed _ _ := hat
  quiet _ := rfl
  tagged := List.forall_mem_nil _

end ScanState

/-- The inside of an interpolation begins after its opener, and the scan goes on after the brace
that closes it. -/
theorem Fragments.interpolation_after {nested : NestedScan} (hn : nested.Sound) {c after : Cursor}
    {cs : Text} {f : Fragment} (hc : c.rest = .char '$' :: .char '\x7b' :: cs)
    (h : interpolation nested c = .ok (f, after)) : c.offset + 2 < after.offset := by
  unfold interpolation at h
  obtain ⟨⟨ts, brace⟩, hts, h⟩ := bind_eq_ok.mp h
  cases h
  obtain ⟨inside, hinside, hbrace, -, -⟩ := hn _ _ _ _ hts
  have hopener : (c.skip 2).offset = c.offset + 2 := by
    rw [(Cursor.reads_skip c 2).offset, hc]
    rfl
  have hclose : (brace.skip 1).offset = brace.offset + 1 := by
    obtain ⟨rest, hrest⟩ := List.head?_eq_some_iff.mp hbrace
    rw [(Cursor.reads_skip brace 1).offset, hrest]
    rfl
  have := hinside.offset
  omega

/-- Reading the body of a heredoc takes the oldest from the queue, and goes on no earlier. -/
theorem HeredocQueue.resolveNext_cases {q q' : HeredocQueue} {nested : NestedScan} {c : Cursor}
    {r : Except Failure HeredocBody} (h : q.resolveNext nested c = some (r, q')) :
    (∃ p, q.waiting = p :: q'.waiting) ∧ ∀ body, r = .ok body → c.offset ≤ body.resume.offset := by
  unfold resolveNext at h
  split at h
  · cases h
  next p waiting hq =>
    cases h
    refine ⟨⟨p, hq⟩, fun body hbody => ?_⟩
    obtain ⟨cs, hpasses⟩ := PendingHeredoc.resolve_passes hbody
    exact le_of_le_of_eq (Nat.le_add_right _ _) hpasses.offset.symm

/-- How a scan of a source ends, and the scans of the insides of interpolations within it. -/
structure Token.ScanEnds (source : Text) : Prop where
  ends : Token.scan source ≠ .error .exhausted
  /-- So do the scans of the insides of interpolations. -/
  nested : ∀ {opener c}, Cursor.At source c → Token.scanNested opener c ≠ .error .exhausted
  /-- A run that begins with more fuel than characters has more at every state that it comes to, and
  goes on from there. -/
  bound : ∀ {opener c fuel left s}, Cursor.At source c → c.rest.length < fuel →
    ScanState.Visits fuel (.start opener c) left s →
    ScanState.run fuel (.start opener c) = ScanState.run left s ∧ s.cursor.rest.length < left
  /-- The next step there reads a character. -/
  step : ∀ {opener c fuel left s s'}, Cursor.At source c → c.rest.length < fuel →
    ScanState.Visits fuel (.start opener c) (left + 1) s →
    s.step (ScanState.nestedRun left) = .ok (some s') → s.cursor.offset < s'.cursor.offset
  interpolation : ∀ {fuel c cs f after}, c.rest = .char '$' :: .char '\x7b' :: cs →
    Fragments.interpolation (ScanState.nestedRun fuel) c = .ok (f, after) →
    c.offset + 2 < after.offset
  heredoc : ∀ {q q' : HeredocQueue} {nested c r}, q.resolveNext nested c = some (r, q') →
    (∃ p, q.waiting = p :: q'.waiting) ∧ ∀ body, r = .ok body → c.offset ≤ body.resume.offset

theorem Token.scan_scanEnds (source : Text) : ScanEnds source where
  ends h := by
    have hscans := Token.scan_scans source
    rw [h] at hscans
    exact hscans
  nested hat h := Token.scanNested_error hat h
  bound hat hfuel h :=
    ⟨h.run_eq, (h.progress (ScanState.start_ready_at _ hat) (fun _ => hat) hfuel).1⟩
  step hat hfuel h hstep := by
    obtain ⟨hleft, hready, hplaced⟩ :=
      h.progress (ScanState.start_ready_at _ hat) (fun _ => hat) hfuel
    exact (ScanState.step_progress hready hplaced (Nat.le_of_lt_succ hleft) hstep).2.1
  interpolation hc h := Fragments.interpolation_after (ScanState.nestedRun_sound _) hc h
  heredoc h := HeredocQueue.resolveNext_cases h

/-! ## Parses -/

open TokenStream ManifestTree.Parser

/-- The parser does not meet its bound, and where it answers it has left the end of input. -/
structure Parser.Ends {α : Type} (p : Parser α) (scope : Scope) (s : TokenStream) : Prop where
  bound : (p.run scope).run s ≠ .error .exhausted
  reaches : ∀ a s', Gives p scope s a s' → s.Reaches s'

/-- It has also read a token. -/
structure Parser.Progresses {α : Type} (p : Parser α) (scope : Scope) (s : TokenStream) : Prop where
  bound : (p.run scope).run s ≠ .error .exhausted
  advances : ∀ a s', Gives p scope s a s' → s.Advances s'

section

variable {α : Type} {N : Text → Prop} {p : Parser α} {scope : Scope} {s : TokenStream}

theorem Parser.Settles.ne_exhausted {Q : α → TokenStream → Prop} (h : Settles N p scope s Q) :
    (p.run scope).run s ≠ .error .exhausted := by
  intro he
  unfold Settles at h
  rw [he] at h
  exact h

theorem Parser.Settles.of_gives {Q : α → TokenStream → Prop} (h : Settles N p scope s Q) {a : α}
    {s' : TokenStream} (hg : Gives p scope s a s') : Q a s' := by
  unfold Settles at h
  rwa [show (p.run scope).run s = .ok (a, s') from hg] at h

theorem Parser.Settles.ends (h : Settles N p scope s fun _ s' => s.Reaches s') : Ends p scope s :=
  ⟨h.ne_exhausted, fun _ _ => h.of_gives⟩

theorem Parser.Consumes.progresses (h : Consumes N p scope s) : Progresses p scope s :=
  ⟨Settles.ne_exhausted h, fun _ _ => Settles.of_gives h⟩

end

namespace Parse

/-- Constructs read a token, those that loops read one after the other among them, and loops end. -/
structure Progresses (g : Grammar) (scope : Scope) (s : TokenStream) : Prop where
  statement : (statement g).Progresses scope s
  expression : ∀ maxRank command, (binary g maxRank command).Progresses scope s
  commandExpression : ∀ maxRank, (command g maxRank).Progresses scope s
  operand : ∀ place, (unary g place).Progresses scope s
  type : (typeExpression g).Progresses scope s
  typeArgument : (typeArgument g).Progresses scope s
  parameter : (parameter g).Progresses scope s
  attributeItem : (attributeItem g).Progresses scope s
  hashEntry : (hashEntry g).Progresses scope s
  selectorItem : ∀ seen, (selectorItem g seen).Progresses scope s
  body : (body g).Progresses scope s
  caseOption : ∀ seen options, (caseOption g seen options).Progresses scope s
  caseArm : ∀ seen, (caseArm g seen).Progresses scope s
  compositionTarget : (compositionTarget g).Progresses scope s
  nodeMatch : (nodeMatch g).Progresses scope s
  resourceBody : (resourceBody g).Progresses scope s
  chainElement : (chainElement g).Progresses scope s
  /-- What may follow an operand, an expression or a statement. -/
  postfixTail : ∀ operand, (postfixTail g operand).Ends scope s
  climb : ∀ maxRank command left, (climb g maxRank command left).Ends scope s
  climbCommand : ∀ maxRank left, (climbCommand g maxRank left).Ends scope s
  chain : ∀ left, (chain g left).Ends scope s
  /-- Series of attributes and of bodies. -/
  attributes : ∀ closes, (attributes g closes).Ends scope s
  resourceBodies : (resourceBodies g).Ends scope s

/-- The bound on nesting is not met either, if it is above the number of tokens. -/
theorem grammar_progresses {s : TokenStream} {n : Nat} (hs : s.Terminated)
    (hn : Token.countAll s.rest < n) (scope : Scope) : Progresses (grammar n) scope s := by
  have hg := grammar_settles (fun _ => True) n
  have htidy : s.Tidy (fun _ => True) n := ⟨hs, fun _ _ _ _ _ => trivial, hn⟩
  exact {
    statement := (statement_settles hg htidy.succ).progresses
    expression := fun _ _ => (binaryIn_settles hg _ _ _ htidy.succ).progresses
    commandExpression := fun _ => (command_settles hg _ htidy.succ).progresses
    operand := fun place => (unary_settles hg place htidy.succ).progresses
    type := (typeExpression_settles hg htidy.succ).progresses
    typeArgument := (typeArgument_settles hg s htidy).progresses
    parameter := (parameter_settles hg s htidy).progresses
    attributeItem := (attributeItem_settles hg s htidy).progresses
    hashEntry := (hashEntry_settles hg s htidy).progresses
    selectorItem := fun seen => (selectorItem_settles hg seen s htidy).progresses
    body := (body_settles hg htidy).progresses
    caseOption := fun seen options => (caseOption_settles hg seen options htidy).progresses
    caseArm := fun seen => (caseArm_settles hg seen htidy).progresses
    compositionTarget := (compositionTarget_settles hg s htidy).progresses
    nodeMatch := (nodeMatch_settles hg s htidy).progresses
    resourceBody := (resourceBody_settles hg htidy).progresses
    chainElement := (chainElement_settles hg htidy).progresses
    postfixTail := fun operand => (postfixTail_settles hg htidy operand).ends
    climb := fun maxRank command left => (climb_settles hg maxRank command htidy left).ends
    climbCommand := fun maxRank left => (climbCommand_settles hg maxRank htidy left).ends
    chain := fun left => (chain_settles hg htidy left).ends
    attributes := fun closes => (attributes_settles hg closes htidy).ends
    resourceBodies := (resourceBodies_settles hg htidy).ends }

/-- How a parse of tokens ends, and the constructs read at any place in them. -/
structure TokensEnd (ts : List Token) : Prop where
  ends : tokens ts ≠ .error .exhausted
  constructs : ∀ {s n scope}, (ofTokens ts).Reaches s → Token.countAll s.rest < n →
    Progresses (grammar n) scope s

/-- Tokens whose only end of input is the last of them. -/
theorem tokens_end {ts : List Token} {last : Token} (hlast : last.kind = .endOfInput)
    (hts : ∀ t ∈ ts, t.Terminated) : TokensEnd (ts ++ [last]) where
  ends h := tokens_error (N := fun _ => True) hlast hts (fun _ _ _ _ _ => trivial) h
  constructs hreach hn := by
    have htidy := ofTokens_tidy (N := fun _ => True) hlast hts (fun _ _ _ _ _ => trivial)
      (Nat.lt_succ_self _)
    exact grammar_progresses (htidy.terminated.reaches hreach) hn _

end Parse

/-- Every scan ends, and so does every parse of tokens whose only end of input is the last of them.
No bound is met: each step of a scan and each construct of a parse reads something, and no construct
reads the end of input. -/
theorem Node.parse_ends (source : Text) {ts : List Token} {last : Token}
    (hlast : last.kind = .endOfInput) (hts : ∀ t ∈ ts, t.Terminated) :
    Token.ScanEnds source ∧ Node.parse source ≠ .error .exhausted ∧
      Parse.TokensEnd (ts ++ [last]) :=
  ⟨Token.scan_scanEnds source, fun h => Node.parse_error h, Parse.tokens_end hlast hts⟩

/-- The tokens of an assignment of a string with an interpolation. -/
def assignedString : List Token :=
  [.mk .variable (Text.ofString "$a") ⟨0, 2, 1, 1⟩ .plain,
    .mk (.symbol .equals) (Text.ofString "=") ⟨3, 4, 1, 4⟩ .plain,
    .mk .string (Text.ofString "\"x$\x7bb\x7d\"") ⟨5, 12, 1, 6⟩ (.fragments
      [.mk (Text.ofString "x") ⟨6, 7, 1, 7⟩ .content,
        .mk (Text.ofString "$\x7bb\x7d") ⟨7, 11, 1, 8⟩ (.interpolation
          [.mk .name (Text.ofString "b") ⟨9, 10, 1, 10⟩ .plain, Token.endAt ⟨10, 1, 11⟩])])]

theorem Node.parse_ends_assignment :
    ∃ source ts last, source = Text.ofString "$a = \"x$\x7bb\x7d\"" ∧ ts = assignedString ∧
      last = Token.endAt ⟨12, 1, 13⟩ ∧ last.kind = .endOfInput ∧ (∀ t ∈ ts, t.Terminated) ∧
      Token.ScanEnds source ∧ Node.parse source ≠ .error .exhausted ∧
      Parse.TokensEnd (ts ++ [last]) := by
  have hts : ∀ t ∈ assignedString, t.Terminated := by
    unfold assignedString
    simp only [List.forall_mem_cons, List.not_mem_nil, false_imp_iff, implies_true, and_true]
    refine ⟨⟨nofun, List.forall_mem_nil _⟩, ⟨nofun, List.forall_mem_nil _⟩, nofun, ?_⟩
    refine List.forall_mem_cons.mpr ⟨nofun, List.forall_mem_cons.mpr ⟨?_, List.forall_mem_nil _⟩⟩
    rintro _ ⟨⟩
    exact ⟨[.mk .name (Text.ofString "b") ⟨9, 10, 1, 10⟩ .plain], Token.endAt ⟨10, 1, 11⟩, rfl, rfl,
      List.forall_mem_singleton.mpr nofun⟩
  exact ⟨_, _, _, rfl, rfl, rfl, rfl, hts, Node.parse_ends _ rfl hts⟩

end ManifestTree
