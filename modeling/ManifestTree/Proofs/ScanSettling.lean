import ManifestTree.Proofs.Numerals
import ManifestTree.Proofs.ScanLayout
import ManifestTree.Proofs.ScopedNames
import ManifestTree.Proofs.Settling

/-!
# Scans settle

A scan fails only by refusing the source or at a digit sign that is no decimal digit.  `Scans` says
so of a part of a scan, and what holds of its answer.  Each step leaves fewer characters to read,
and the inside of an interpolation begins after its opener, so one more step than there are
characters is never used up.  Along the way every integer is
found to be a numeral of the source, every name to be spelled as one, and no interpolation to hold a
heredoc.
-/

namespace ManifestTree

open Text

/-! ## Failures of a scan -/

/-- At the span stands a digit sign that is no decimal digit. -/
def DigitSignAt (source : Text) (span : Span) : Prop :=
  ∃ before c after, source = before ++ c :: after ∧
    span = Span.sized (Position.start.after before) 1 ∧ isDigit c ∧ isDecimal c = false

/-- How a scan may fail: the source is refused for a lexical problem, or a digit sign stands where a
number begins. -/
def Failure.OfScanning (source : Text) : Failure → Prop
  | .rejected e => e.kind.isLexical
  | .digitSign span => DigitSignAt source span
  | .octalDigit _ | .exhausted => False

/-- The text is a numeral and stands in the source. -/
def NumeralOf (source text : Text) : Prop := Literal.Numeral text ∧ text <:+: source

section

variable {source : Text} {α β : Type} {Q R : α → Prop}

/-- Part of a scan fails as a scan may, or answers so that `Q` holds of the answer. -/
def Scans (source : Text) (x : Except Failure α) (Q : α → Prop) : Prop :=
  match x with
  | .ok a => Q a
  | .error f => f.OfScanning source

theorem Scans.mono {x : Except Failure α} (h : Scans source x Q)
    (hQ : ∀ a, x = .ok a → Q a → R a) : Scans source x R := by
  cases x with
  | ok a => exact hQ a rfl h
  | error f => exact h

@[simp] theorem scans_ok {a : α} : Scans source (.ok a) Q ↔ Q a := Iff.rfl

@[simp] theorem scans_pure {a : α} : Scans source (pure a) Q ↔ Q a := Iff.rfl

@[simp] theorem scans_reject {problem : Problem} {span : Span} :
    Scans source (reject problem span : Except Failure α) Q ↔ problem.kind.isLexical := Iff.rfl

@[simp] theorem scans_bind {x : Except Failure α} {f : α → Except Failure β} {Q : β → Prop} :
    Scans source (x >>= f) Q ↔ Scans source x fun a => Scans source (f a) Q := by
  cases x <;> rfl

@[simp] theorem scans_map {x : Except Failure α} {f : α → β} {Q : β → Prop} :
    Scans source (f <$> x) Q ↔ Scans source x fun a => Q (f a) := by
  cases x <;> rfl

end

/-- A text that is no heredoc tag has a lexical problem. -/
theorem HeredocTag.parse_error {text : Text} {problem : Problem}
    (h : HeredocTag.parse text = .error problem) : problem.kind.isLexical := by
  unfold HeredocTag.parse at h
  split_ifs at h with hblank
  · cases h
    rfl
  split at h
  · cases h
    rfl
  split_ifs at h
  cases h
  rfl

/-! ## Tokens of interpolations -/

/-- The token carries what its kind asks for: a string fragments, a heredoc its tag, and any other
token nothing. -/
def Token.Shaped (t : Token) : Prop :=
  t.detail = .plain ∨ (t.kind = .string ∧ ∃ fs, t.detail = .fragments fs) ∨
    (t.kind = .heredoc ∧ ∃ tag body, t.detail = .heredoc tag body)

theorem Token.Shaped.heredoc {t : Token} (h : t.Shaped) {tag : HeredocTag}
    {body : Option HeredocBody} (hd : t.detail = .heredoc tag body) : t.kind = .heredoc := by
  rcases h with hplain | ⟨-, fs, hfragments⟩ | ⟨hk, -⟩
  · rw [hd] at hplain
    cases hplain
  · rw [hd] at hfragments
    cases hfragments
  · exact hk

/-- How tokens of a kind are spelled: a name, a reference or a keyword is a scoped name, a variable is
one after a dollar sign, and a float is no integer. -/
def TokenKind.Spells : TokenKind → Text → Prop
  | .name, text | .reference, text | .keyword _, text => Lexeme.Scoped text
  | .variable, text => ∃ name, text = .char '$' :: name ∧ Lexeme.Scoped name
  | .float, text => Literal.integer? text = none
  | _, _ => True

/-- A variable is spelled as one.  The tokens of the fragment are no heredocs, they carry what their
kinds ask for, integers among them are numerals of the source, and they are spelled as their
kinds are. -/
structure Fragment.Regular (source : Text) (f : Fragment) : Prop where
  spelled : f.piece = .variable → TokenKind.variable.Spells f.text
  tokens : ∀ u ∈ f.tokens, u.kind ≠ .heredoc ∧ u.Shaped ∧
    (u.kind = .integer → NumeralOf source u.text) ∧ u.kind.Spells u.text

/-- The token carries what its kind asks for, it is a numeral of the source if it is an integer, it
is spelled as its kind is, the tag of a heredoc stands in its text, and the fragments within it are
regular. -/
structure Token.Regular (source : Text) (t : Token) : Prop where
  shape : t.Shaped
  integer : t.kind = .integer → NumeralOf source t.text
  spelled : t.kind.Spells t.text
  tagged : ∀ tag body, t.detail = .heredoc tag body →
    tag.text <:+: t.text ∧ HeredocTag.parse tag.text = .ok tag
  deep : ∀ f ∈ t.deepFragments, f.Regular source

section

variable {source : Text}

theorem Token.Regular.numbered {t : Token} (h : t.Regular source) :
    t.Numbered (NumeralOf source) := by
  intro u hu
  rcases List.mem_cons.mp hu with rfl | hu
  · exact h.integer
  · obtain ⟨f, hf, hu⟩ := List.mem_flatMap.mp hu
    exact ((h.deep f hf).tokens u hu).2.2.1

/-- A token without fragments. -/
theorem Token.regular_of_plain {kind : TokenKind} {text : Text} {span : Span}
    (hk : kind = .integer → NumeralOf source text) (hs : kind.Spells text) :
    (Token.mk kind text span .plain).Regular source :=
  ⟨.inl rfl, hk, hs, fun _ _ hd => TokenDetail.noConfusion hd,
    by simp [Token.deepFragments, TokenDetail.deepFragments]⟩

theorem Fragment.regular_of_tokens {f : Fragment}
    (hs : f.piece = .variable → TokenKind.variable.Spells f.text)
    (h : ∀ t ∈ f.tokens, t.kind ≠ .heredoc ∧ t.Regular source) :
    ∀ g ∈ f.deep, g.Regular source := by
  intro g hg
  rcases Fragment.mem_deep.mp hg with rfl | ⟨t, ht, hg⟩
  · exact ⟨hs, fun u hu => ⟨(h u hu).1, (h u hu).2.shape, (h u hu).2.integer, (h u hu).2.spelled⟩⟩
  · exact (h t ht).2.deep g hg

end

/-- The scanner of interpolations settles where fewer than `n` characters are left, and answers
regular tokens, none of which is a heredoc. -/
def NestedScan.Settles (source : Text) (n : Nat) (nested : NestedScan) : Prop :=
  ∀ opener c, Cursor.At source c → c.rest.length < n →
    Scans source (nested opener c) fun p => ∀ t ∈ p.1, t.kind ≠ .heredoc ∧ t.Regular source

/-! ## Fragments -/

namespace Fragments

variable {source : Text} {nested : NestedScan} {n : Nat}

theorem content_regular (run c : Cursor) : ∀ f ∈ content run c, ∀ g ∈ f.deep, g.Regular source := by
  intro f hf
  unfold content at hf
  split at hf
  · cases hf
  · rw [List.mem_singleton.mp hf]
    exact Fragment.regular_of_tokens Piece.noConfusion (List.forall_mem_nil _)

theorem length_skip_lt {c : Cursor} {k : Nat} (hk : 0 < k) (hc : c.rest ≠ []) :
    (c.skip k).rest.length < c.rest.length := by
  have := List.length_pos_iff.mpr hc
  simp only [Cursor.skip, List.length_drop]
  omega

theorem interpolation_scans (hn : nested.Sound) (hs : nested.Settles source n) {c : Cursor}
    {cs : Text} (hat : Cursor.At source c) (hc : c.rest = .char '$' :: .char '\x7b' :: cs)
    (hlen : c.rest.length ≤ n) :
    Scans source (interpolation nested c) fun p => Cursor.At source p.2 ∧
      p.2.rest.length < c.rest.length ∧ ∀ g ∈ p.1.deep, g.Regular source := by
  have hinside : (c.skip 2).rest.length < n := by
    rw [hc] at hlen
    simp only [Cursor.skip, hc, List.length_drop, List.length_cons] at hlen ⊢
    omega
  have hscan : Scans source (interpolation nested c) fun p =>
      ∀ g ∈ p.1.deep, g.Regular source := by
    simp only [interpolation, scans_bind, scans_pure]
    refine (hs (c.here 2) _ (hat.skip 2) hinside).mono fun p _ hp => ?_
    exact Fragment.regular_of_tokens Piece.noConfusion hp
  refine hscan.mono fun p hf hnum => ?_
  obtain ⟨f, after⟩ := p
  obtain ⟨ws, ts, hread, hne, -, -⟩ := interpolation_sound hn hc hf
  have hlt : after.rest.length < c.rest.length := by
    have := List.length_pos_iff.mpr hne
    rw [hread.rest, List.length_append]
    omega
  exact ⟨hread.at hat, hlt, hnum⟩

theorem Reading.variableLength?_of_next {r : Reading} {c : Cursor} {k : Nat}
    (h : r.next c = .variable k) : Lexeme.variableLength? c.rest = some k := by
  unfold Reading.next at h
  split at h
  · cases h
  split at h
  · cases hstop : r.stop <;> simp [hstop] at h
  unfold Reading.special at h
  split at h
  · cases h
  split at h
  · split at h
    · cases h
    split at h
    · cases h
      assumption
    · cases h
  · cases h

/-- The scan of fragments settles: each step leaves fewer characters. -/
theorem scanFrom_scans (hn : nested.Sound) (hs : nested.Settles source n) {r : Reading}
    {fuel : Nat} {run c : Cursor} (hat : Cursor.At source c) (hlen : c.rest.length ≤ n)
    (hfuel : c.rest.length < fuel) :
    Scans source (scanFrom nested r fuel run c) fun p =>
      ∀ f ∈ p.1, ∀ g ∈ f.deep, g.Regular source := by
  induction fuel generalizing run c with
  | zero => exact absurd hfuel (Nat.not_lt_zero _)
  | succ fuel ih =>
    -- After a fragment that is not plain the scan goes on with fewer characters.
    have resumed {f : Fragment} {after : Cursor} (hafter : Cursor.At source after)
        (hlt : after.rest.length < c.rest.length)
        (hf : ∀ g ∈ f.deep, g.Regular source) :
        Scans source (scanFrom nested r fuel after after >>= fun p =>
            .ok (content run c ++ f :: p.1, p.2)) fun p =>
          ∀ f ∈ p.1, ∀ g ∈ f.deep, g.Regular source := by
      simp only [scans_bind, scans_ok]
      refine (ih hafter (by omega) (by omega)).mono fun p _ hp f' hf' => ?_
      rcases List.mem_append.mp hf' with hf' | hf'
      · exact content_regular run c f' hf'
      rcases List.mem_cons.mp hf' with rfl | hf'
      · exact hf
      · exact hp f' hf'
    have hspec := @Reading.next_spec r c
    unfold scanFrom
    cases hnext : r.next c with
    | done => exact content_regular run c
    | unterminated opener => exact scans_reject.mpr rfl
    | escape k value =>
      simp only [hnext] at hspec
      exact resumed (hat.skip k) (length_skip_lt hspec.2.1 hspec.1)
        (Fragment.regular_of_tokens Piece.noConfusion (List.forall_mem_nil _))
    | «variable» k =>
      simp only [hnext] at hspec
      refine resumed (hat.skip k) (length_skip_lt hspec.2 hspec.1)
        (Fragment.regular_of_tokens (fun _ => ?_) (List.forall_mem_nil _))
      show ∃ name, c.upTo (c.skip k) = .char '$' :: name ∧ Lexeme.Scoped name
      rw [(Cursor.reads_skip c k).upTo_eq]
      exact Lexeme.variableLength?_scoped (Reading.variableLength?_of_next hnext)
    | interpolation =>
      simp only [hnext] at hspec
      obtain ⟨cs, hc⟩ := hspec
      rw [scans_bind]
      exact (interpolation_scans hn hs hat hc hlen).mono fun p _ hp => resumed hp.1 hp.2.1 hp.2.2
    | plain =>
      simp only [hnext] at hspec
      have hlt := length_skip_lt (c := c) Nat.one_pos hspec
      exact ih (hat.skip 1) (by omega) (by omega)

theorem scan_scans (hn : nested.Sound) (hs : nested.Settles source n) {r : Reading} {c : Cursor}
    (hat : Cursor.At source c) (hlen : c.rest.length ≤ n) :
    Scans source (scan nested r c) fun p =>
      ∀ f ∈ p.1, ∀ g ∈ f.deep, g.Regular source :=
  scanFrom_scans hn hs hat hlen (Nat.lt_succ_self _)

end Fragments

/-! ## Heredoc bodies -/

namespace PendingHeredoc

variable {source : Text} {nested : NestedScan} {n : Nat}

/-- The fragments of body lines settle. -/
theorem scanLines_scans (hn : nested.Sound) (hs : nested.Settles source n) {tag : HeredocTag}
    {indent : Option Nat} {chomp : Bool} {lines : List SourceLine} {resume start stop : Cursor}
    (hl : LinesTo start lines stop) (hat : Cursor.At source start)
    (hresume : Cursor.At source resume) (hlen : start.rest.length ≤ n)
    (hlen' : resume.rest.length ≤ n) :
    Scans source (scanLines nested tag indent chomp resume lines) fun fs =>
      ∀ f ∈ fs, ∀ g ∈ f.deep, g.Regular source := by
  induction hl generalizing resume with
  | nil => exact List.forall_mem_nil _
  | @cons c d e text more _ hread _ ih =>
    have hd := hread.at hat
    have hdlen : d.rest.length ≤ n := by
      rw [hread.rest, List.length_append] at hlen
      omega
    unfold scanLines
    dsimp only
    generalize lineStop (chomp && more.isEmpty) ⟨c, text⟩ = lineEnd
    have hbegin := lineBegin?_spec indent resume ⟨c, text⟩ lineEnd hread
    cases hb : lineBegin? indent resume ⟨c, text⟩ lineEnd with
    | none => exact ih hd hresume hdlen hlen'
    | some b =>
      simp only [hb] at hbegin
      have hbat : Cursor.At source b ∧ b.rest.length ≤ n := by
        rcases hbegin with rfl | ⟨ws, hws, -⟩
        · exact ⟨hresume, hlen'⟩
        · refine ⟨hws.at hat, ?_⟩
          have : c.rest = ws ++ b.rest := hws.rest
          rw [this, List.length_append] at hlen
          omega
      simp only [scans_bind, scans_pure]
      refine (Fragments.scan_scans hn hs hbat.1 hbat.2).mono fun p hok hfront => ?_
      obtain ⟨front, last⟩ := p
      obtain ⟨ds, hlast, -⟩ := (Fragments.scan_scanned hn hok).tiles
      have hlastlen : last.rest.length ≤ n := by
        have hle := hbat.2
        rw [hlast.rest, List.length_append] at hle
        omega
      refine (ih hd (hlast.at hbat.1) hdlen hlastlen).mono fun back _ hback f hf => ?_
      exact (List.mem_append.mp hf).elim (hfront f) (hback f)

/-- The body of a heredoc settles. -/
theorem resolve_scans (hn : nested.Sound) (hs : nested.Settles source n)
    {pending : PendingHeredoc} {c : Cursor} (hat : c.rest ≠ [] → Cursor.At source c)
    (hlen : c.rest.length ≤ n) :
    Scans source (pending.resolve nested c) fun b =>
      ∀ f ∈ b.deepFragments, f.Regular source := by
  unfold resolve
  split
  · exact scans_reject.mpr rfl
  rename_i body line closing hsplit
  dsimp only
  simp only [scans_bind, scans_pure]
  generalize (if closing.trim.margin then some closing.indent else none) = indent
  have hlines := (splitAtClosing?_lines hsplit).1
  have hfragments : Scans source (scanLines nested pending.tag indent closing.trim.chomp c body)
      fun fs => ∀ f ∈ fs, ∀ g ∈ f.deep, g.Regular source := by
    cases hlines with
    | nil => exact List.forall_mem_nil _
    | cons hnl hread hmore =>
      have hat := hat (by rw [hread.rest]; simp)
      exact scanLines_scans hn hs (.cons hnl hread hmore) hat hat hlen hlen
  refine hfragments.mono fun fs _ hfs f hf => ?_
  obtain ⟨g, hg, hf⟩ := HeredocBody.mem_deepFragments.mp hf
  exact hfs g hg f hf

end PendingHeredoc

/-- The bodies of some heredocs settle. -/
theorem resolveAll_scans {source : Text} {nested : NestedScan} {n : Nat}
    (hn : nested.Sound) (hs : nested.Settles source n) {pending : List PendingHeredoc}
    {c : Cursor} (hat : c.rest ≠ [] → Cursor.At source c) (hlen : c.rest.length ≤ n) :
    Scans source (resolveAll nested pending c) fun p =>
      (∀ b ∈ p.1, ∀ f ∈ b.deepFragments, f.Regular source) ∧
        p.2.rest.length ≤ c.rest.length := by
  induction pending generalizing c with
  | nil => exact ⟨List.forall_mem_nil _, Nat.le_refl _⟩
  | cons p pending ih =>
    unfold resolveAll
    simp only [scans_bind, scans_pure]
    refine (PendingHeredoc.resolve_scans hn hs hat hlen).mono fun b hb hnum => ?_
    obtain ⟨cs, hpasses⟩ := PendingHeredoc.resolve_passes hb
    have hjump : (c.jump b.resume).rest.length ≤ c.rest.length := by
      rw [hpasses.rest, List.length_append]
      omega
    refine (ih (hpasses.at hat) (by omega)).mono fun r _ hr => ?_
    exact ⟨List.forall_mem_cons.mpr ⟨hnum, hr.1⟩, by omega⟩

/-! ## Steps -/

namespace ScanState

variable {source : Text} {nested : NestedScan} {n : Nat} {s s' : ScanState}

/-- The tokens and bodies so far are regular. -/
structure Carries (source : Text) (s : ScanState) : Prop where
  tokens : ∀ t ∈ s.tokens, t.Regular source
  bodies : ∀ b ∈ s.bodies, ∀ f ∈ b.deepFragments, f.Regular source

/-- A step leaves fewer characters, and keeps the tokens and bodies regular. -/
structure Goes (source : Text) (s s' : ScanState) : Prop where
  shorter : s'.cursor.rest.length < s.cursor.rest.length
  carries : s.Carries source → s'.Carries source

/-- Adding a token goes on if the token takes a character. -/
theorem emit_goes {kind : TokenKind} {after : Cursor} {detail : TokenDetail}
    (hlt : after.rest.length < s.cursor.rest.length)
    (ht : (Token.mk kind (s.cursor.upTo after) (s.cursor.spanTo after) detail).Regular source) :
    s.Goes source (s.emit kind after detail) where
  shorter := hlt
  carries h := ⟨List.forall_mem_cons.mpr ⟨ht, h.tokens⟩, h.bodies⟩

/-- Adding a plain token that is no integer. -/
theorem emit_plain_goes {kind : TokenKind} {k : Nat} (hc : s.cursor.rest ≠ []) (hk : 0 < k)
    (hkind : kind ≠ .integer) (hs : kind.Spells (s.cursor.rest.take k)) :
    s.Goes source (s.emit kind (s.cursor.skip k) .plain) := by
  rw [← (Cursor.reads_skip s.cursor k).upTo_eq] at hs
  exact emit_goes (Fragments.length_skip_lt hk hc)
    (Token.regular_of_plain (fun h => absurd h hkind) hs)

theorem readVariable_scans (hc : s.cursor.rest ≠ []) :
    Scans source s.readVariable (s.Goes source) := by
  unfold readVariable
  split
  · exact emit_plain_goes hc (Lexeme.variableLength?_pos ‹_›) (by simp)
      (Lexeme.variableLength?_scoped ‹_›)
  · exact scans_reject.mpr rfl

theorem readString_scans (hn : nested.Sound) (hs : nested.Settles source n)
    (hat : Cursor.At source s.cursor) (hc : s.cursor.rest ≠ []) (hlen : s.cursor.rest.length ≤ n)
    (quote : CodePoint) : Scans source (s.readString nested quote) (s.Goes source) := by
  have hlt := Fragments.length_skip_lt Nat.one_pos hc
  simp only [readString, scans_bind, scans_pure]
  refine (Fragments.scan_scans hn hs (hat.skip 1) (by omega)).mono fun p hok hfs => ?_
  obtain ⟨fs, close⟩ := p
  obtain ⟨ds, hread, -⟩ := (Fragments.scan_scanned hn hok).tiles
  refine emit_goes ?_
    ⟨.inr (.inl ⟨rfl, _, rfl⟩), by simp [Token.kind], trivial,
      fun _ _ hd => TokenDetail.noConfusion hd,
      fun f hf => ?_⟩
  · rw [hread.rest, List.length_append] at hlt
    simp only [Cursor.skip, List.length_drop]
    omega
  · rcases Token.mem_deepFragments.mp hf with ⟨g, hg, hf⟩ | ⟨b, hb, -⟩
    · exact hfs g hg f hf
    · simp [Token.body?, Token.detail] at hb

/-- A number settles: where none can be read stands a digit sign. -/
theorem readNumber_scans (hat : Cursor.At source s.cursor) {c : CodePoint} {cs : Text}
    (hc : s.cursor.rest = c :: cs) (hd : isDigit c) :
    Scans source s.readNumber (s.Goes source) := by
  obtain ⟨before, hsource, hpos⟩ := hat
  unfold readNumber
  split
  · rename_i hnone
    rw [hc] at hnone
    refine ⟨before, c, cs, by rw [hsource, hc], ?_, hd, Lexeme.number?_eq_none hnone⟩
    rw [Cursor.here, hpos]
  · rename_i k form hk
    dsimp only
    have hread := Cursor.reads_skip s.cursor k
    have htext : s.cursor.upTo (s.cursor.skip k) = s.cursor.rest.take k := hread.upTo_eq
    split
    · exact scans_reject.mpr rfl
    split
    · exact scans_reject.mpr rfl
    rename_i hoctal
    refine emit_goes (Fragments.length_skip_lt (number?_pos hk) (by simp [hc])) ?_
    rw [htext] at hoctal ⊢
    refine Token.regular_of_plain (fun hkind => ⟨?_, ?_⟩) ?_
    · refine Lexeme.number?_numeral hk (fun h => ?_) (by simpa using hoctal)
      simp [h, numberKind] at hkind
    · rw [hsource]
      exact (List.take_prefix _ _).isInfix.trans (List.suffix_append _ _).isInfix
    · cases form with
      | float => exact Lexeme.number?_float hk
      | hexadecimal | integer => trivial

/-- What stands after two characters is a piece of what is read with them. -/
theorem isInfix_upTo_skip {c : Cursor} {cs : Text} {k : Nat} (h : cs <+: c.rest.drop 2)
    (hk : cs.length + 2 ≤ k) : cs <:+: c.upTo (c.skip k) := by
  have hcs : cs = (c.rest.take (2 + cs.length)).drop 2 := by
    rw [← List.take_drop]
    exact List.prefix_iff_eq_take.mp h
  have hread : c.upTo (c.skip k) = c.rest.take k := (Cursor.reads_skip c k).upTo_eq
  rw [hread]
  conv_lhs => rw [hcs]
  exact (List.drop_suffix _ _).isInfix.trans (List.take_prefix_take_left (by omega)).isInfix

theorem readHeredocTag_scans (hc : s.cursor.rest ≠ []) :
    Scans source s.readHeredocTag (s.Goes source) := by
  unfold readHeredocTag
  dsimp only
  split
  · exact scans_reject.mpr rfl
  split
  · exact scans_reject.mpr rfl
  rw [Cursor.skip_skip]
  unfold HeredocQueue.enqueue
  split
  case h_2 => exact scans_reject.mpr (HeredocTag.parse_error ‹_›)
  case h_1 tag htag =>
    refine ⟨Fragments.length_skip_lt (Nat.succ_pos _) hc, fun h => ⟨?_, h.bodies⟩⟩
    refine List.forall_mem_cons.mpr ⟨⟨.inr (.inr ⟨rfl, _, _, rfl⟩),
      by simp [Token.kind], trivial, fun other body hd => ?_, ?_⟩, h.tokens⟩
    · cases hd
      refine ⟨?_, HeredocTag.parse_text htag⟩
      rw [HeredocTag.text_eq htag]
      exact isInfix_upTo_skip (List.takeWhile_prefix _) (Nat.le_succ _)
    · simp [Token.deepFragments, TokenDetail.deepFragments]

theorem readSymbol_scans (hc : s.cursor.rest ≠ []) (c : CodePoint) :
    Scans source (s.readSymbol c) (s.Goes source) := by
  unfold readSymbol
  split
  · rename_i symbol _
    exact emit_plain_goes hc (by cases symbol <;> decide) (by simp) trivial
  · exact scans_reject.mpr rfl

theorem readWord_scans (hc : s.cursor.rest ≠ []) (c : CodePoint) :
    Scans source (s.readWord c) (s.Goes source) := by
  unfold readWord
  split
  · rename_i k hk
    unfold regexLength? at hk
    split at hk
    · cases hk
    · exact emit_plain_goes hc (regexLength?_pos hk) (by simp) trivial
  split
  · rename_i hname
    have hscoped := Lexeme.nameLength?_scoped hname
    unfold TokenKind.ofName
    split <;> exact emit_plain_goes hc (scopedLength?_pos hname) (by simp) hscoped
  split
  · exact emit_plain_goes hc (scopedLength?_pos ‹_›) (by simp) (Lexeme.referenceLength?_scoped ‹_›)
  · exact readSymbol_scans hc c

theorem readToken_scans (hn : nested.Sound) (hs : nested.Settles source n)
    (hat : Cursor.At source s.cursor) {c : CodePoint} {cs : Text} (hc : s.cursor.rest = c :: cs)
    (hlen : s.cursor.rest.length ≤ n) : Scans source (s.readToken nested c) (s.Goes source) := by
  have hne : s.cursor.rest ≠ [] := by simp [hc]
  unfold readToken
  split
  · exact readVariable_scans hne
  split
  · exact readString_scans hn hs hat hne hlen c
  split
  · exact readNumber_scans hat hc ‹_›
  split
  · exact readHeredocTag_scans hne
  · exact readWord_scans hne c

theorem resolveHeredocs_scans (hn : nested.Sound) (hs : nested.Settles source n)
    (hat : s.cursor.rest ≠ [] → Cursor.At source s.cursor) (hlen : s.cursor.rest.length ≤ n) :
    Scans source (s.resolveHeredocs nested) fun s' =>
      s'.cursor.rest.length ≤ s.cursor.rest.length ∧
        (s.Carries source → s'.Carries source) := by
  simp only [resolveHeredocs, scans_bind, scans_pure]
  refine (resolveAll_scans hn hs hat hlen).mono fun p _ hb => ?_
  exact ⟨hb.2, fun h => ⟨h.tokens, fun b hmem =>
    (List.mem_append.mp hmem).elim (h.bodies b) (hb.1 b)⟩⟩

theorem newline_scans (hn : nested.Sound) (hs : nested.Settles source n)
    (hat : Cursor.At source s.cursor) (hc : s.cursor.rest ≠ [])
    (hlen : s.cursor.rest.length ≤ n) : Scans source (s.newline nested) (s.Goes source) := by
  have hlt : s.blank.cursor.rest.length < s.cursor.rest.length :=
    Fragments.length_skip_lt Nat.one_pos hc
  refine (resolveHeredocs_scans (s := s.blank) hn hs (fun _ => hat.skip 1) (by omega)).mono
    fun s' _ h => ?_
  exact ⟨by omega, fun hs => h.2 ⟨hs.tokens, hs.bodies⟩⟩

/-- Each step of a scan settles, and leaves fewer characters unless it is the last. -/
theorem step_scans (hn : nested.Sound) (hs : nested.Settles source n)
    (hat : s.cursor.rest ≠ [] → Cursor.At source s.cursor) (hlen : s.cursor.rest.length ≤ n) :
    Scans source (s.step nested) fun r => ∀ s' ∈ r, s.Goes source s' := by
  have stopped : Scans source (.ok none) fun r => ∀ s' ∈ r, s.Goes source s' :=
    fun s' h => absurd h (Option.not_mem_none s')
  unfold step
  split
  · exact stopped
  rename_i c cs hc
  have hne : s.cursor.rest ≠ [] := by simp [hc]
  have hat := hat hne
  have continued {r : Except Failure ScanState} (h : Scans source r (s.Goes source)) :
      Scans source (some <$> r) fun r => ∀ s' ∈ r, s.Goes source s' := by
    rw [scans_map]
    refine h.mono fun s' _ hgoes s'' hs'' => ?_
    cases hs''
    exact hgoes
  have skipped {k : Nat} (hk : 0 < k) {comments : List Token} :
      s.Goes source { s with cursor := s.cursor.skip k, comments := comments } :=
    ⟨Fragments.length_skip_lt hk hne, fun h => ⟨h.tokens, h.bodies⟩⟩
  split
  · exact continued (newline_scans hn hs hat hne hlen)
  split
  · rintro _ ⟨⟩
    exact skipped Nat.one_pos
  split
  case isTrue hhash =>
    rintro _ ⟨⟩
    refine skipped ?_
    simp [hc, hhash]
  split
  · refine continued ?_
    unfold blockComment
    split
    · exact skipped (Nat.succ_pos _)
    · exact scans_reject.mpr rfl
  split
  · exact stopped
  · exact continued (readToken_scans hn hs hat hc hlen)

/-! ## Runs -/

theorem attachBodies_regular {ts : List Token}
    {bodies : List HeredocBody} (ht : ∀ t ∈ ts, t.Regular source)
    (hb : ∀ b ∈ bodies, ∀ f ∈ b.deepFragments, f.Regular source) :
    ∀ t ∈ attachBodies ts bodies, t.Regular source := by
  induction ts, bodies using attachBodies.induct with
  | case1 => simp [attachBodies]
  | case2 text span tag _ ts body bodies ih =>
    rw [attachBodies]
    have ht := List.forall_mem_cons.mp ht
    obtain ⟨hbody, hb⟩ := List.forall_mem_cons.mp hb
    obtain ⟨htoken, ht⟩ := ht
    refine List.forall_mem_cons.mpr ⟨⟨.inr (.inr ⟨rfl, _, _, rfl⟩), by simp [Token.kind], trivial,
      fun other b hd => ?_, hbody⟩, ih ht hb⟩
    cases hd
    exact htoken.tagged _ _ rfl
  | case3 t ts bodies hno ih =>
    rw [attachBodies]
    · obtain ⟨h, ht⟩ := List.forall_mem_cons.mp ht
      exact List.forall_mem_cons.mpr ⟨h, ih ht hb⟩
    · exact hno

theorem finish_scans (hn : nested.Sound) (hs : nested.Settles source n)
    (hcarries : s.Carries source)
    (hat : s.cursor.rest ≠ [] → Cursor.At source s.cursor) (hlen : s.cursor.rest.length ≤ n) :
    Scans source (s.finish nested) fun p => ∀ t ∈ p.1, t.Regular source := by
  have end_regular (p : Position) : (Token.endAt p).Regular source :=
    Token.regular_of_plain (fun h => by cases h) trivial
  unfold finish
  split
  · split
    · exact scans_reject.mpr rfl
    · intro t ht
      rcases List.mem_append.mp ht with ht | ht
      · exact hcarries.tokens t (List.mem_reverse.mp ht)
      · rw [List.mem_singleton.mp ht]
        exact end_regular _
  · simp only [scans_bind, scans_pure]
    refine (resolveHeredocs_scans hn hs hat hlen).mono fun s' _ h t ht => ?_
    have hcarries := h.2 hcarries
    rcases List.mem_append.mp ht with ht | ht
    · refine attachBodies_regular (fun u hu => ?_) hcarries.bodies t ht
      exact hcarries.tokens u (List.mem_reverse.mp hu)
    · rw [List.mem_singleton.mp ht]
      exact end_regular _

/-- Within an interpolation no heredoc is opened. -/
theorem run_heredocFree {fuel : Nat} {opener : Span} {c : Cursor} {ts : List Token}
    (h : run fuel (start (some opener) c) = .ok (ts, s')) : ∀ t ∈ ts, t.kind ≠ .heredoc := by
  obtain ⟨nested, s₁, xs, -, hlays, -, hfinish⟩ := run_lays (start_ready [] opener c) h
  obtain ⟨hwaiting, hbodies⟩ := hlays.quiet rfl rfl
  have hnone : (xs.filterMap Stretch.token?).countP (fun t => t.kind = .heredoc) = 0 := by
    have := hlays.waiting
    rw [hbodies, hwaiting] at this
    simpa [start, HeredocQueue.empty] using this
  have htokens : s₁.tokens.reverse = xs.filterMap Stretch.token? := by
    rw [hlays.tokens]
    simp [start]
  have hopener : s₁.opener = some opener := hlays.opener
  simp only [finish, hopener] at hfinish
  split at hfinish
  · cases hfinish
  obtain ⟨rfl, rfl⟩ := Prod.mk.inj (Except.ok.inj hfinish)
  intro t ht
  rcases List.mem_append.mp ht with ht | ht
  · rw [htokens] at ht
    simpa using List.countP_eq_zero.mp hnone t ht
  · rw [List.mem_singleton.mp ht]
    intro hkind
    cases hkind

/-- A scan begins with nothing that could be irregular. -/
theorem start_carries (source : Text) (opener : Option Span) (c : Cursor) :
    (start opener c).Carries source :=
  ⟨List.forall_mem_nil _, List.forall_mem_nil _⟩

/-- The scan of the insides of interpolations settles where its runs do. -/
theorem nested_settles {source : Text} {fuel : Nat}
    (hrun : ∀ opener c, Cursor.At source c → c.rest.length < fuel →
      Scans source (run fuel (start (some opener) c)) fun p => ∀ t ∈ p.1, t.Regular source) :
    NestedScan.Settles source fuel fun opener c => do
      let (tokens, s) ← run fuel (start (some opener) c)
      return (tokens, s.cursor) := by
  intro opener c hat hlt
  simp only [scans_bind, scans_pure]
  refine (hrun opener c hat hlt).mono fun p hp hregular t ht => ?_
  exact ⟨run_heredocFree hp t ht, hregular t ht⟩

/-- A run with more fuel than characters settles. -/
theorem run_scans {fuel : Nat} (hready : s.Ready source)
    (hat : s.cursor.rest ≠ [] → Cursor.At source s.cursor)
    (hcarries : s.Carries source) (hfuel : s.cursor.rest.length < fuel) :
    Scans source (run fuel s) fun p => ∀ t ∈ p.1, t.Regular source := by
  induction fuel generalizing s with
  | zero => exact absurd hfuel (Nat.not_lt_zero _)
  | succ fuel ih =>
    have hn := @nested_sound fuel run_lays
    have hsettles := nested_settles fun opener c hat hlt =>
      ih (start_ready source opener c) (fun _ => hat) (start_carries source _ c) hlt
    unfold run
    dsimp only
    rw [scans_bind]
    refine (step_scans hn hsettles hat (by omega)).mono fun r hr hgoes => ?_
    cases r with
    | none => exact finish_scans hn hsettles hcarries hat (by omega)
    | some s' =>
      obtain ⟨xs, hlays⟩ := step_lays hn hready hr
      obtain ⟨cs, hpasses⟩ := hlays.laid.passes
      have hgoes := hgoes s' rfl
      have := hgoes.shorter
      exact ih (hlays.ready hready) (hpasses.at hat) (hgoes.carries hcarries) (by omega)

end ScanState

theorem Token.scan_scans (source : Text) :
    Scans source (Token.scan source) fun p => ∀ t ∈ p.1, t.Regular source := by
  unfold Token.scan
  simp only [scans_bind, scans_pure]
  have hat := Cursor.At.ofSource source
  have hready := ScanState.start_ready_source source
  exact ScanState.run_scans hready (fun _ => hat) (ScanState.start_carries source none _)
    (Nat.lt_succ_self _)

theorem Token.scan_regular {source : Text} {tokens comments : List Token}
    (h : Token.scan source = .ok (tokens, comments)) : ∀ t ∈ tokens, t.Regular source := by
  have hscan := Token.scan_scans source
  rwa [h] at hscan

end ManifestTree
