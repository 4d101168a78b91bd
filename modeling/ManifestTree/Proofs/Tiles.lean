import ManifestTree.Proofs.Depth
import ManifestTree.Token.Scan
import Mathlib.Data.List.Chain

/-!
# Fragments tile their text

`Fragment.Tiles` says that fragments follow each other without a gap and make up a text, and
`Token.Interleaves` that tokens follow each other with nothing but blanks and comments between
them.  `Fragment.Sound` and `Token.Sound` say of a fragment and of a token what the scanner makes
sure of, down to the innermost interpolation.  What the scanner of fragments answers tiles what it
read, whatever scanner of interpolations it uses.
-/

namespace ManifestTree

open Text

/-! ## Gaps between tokens -/

/-- A blank or a line end. -/
def CodePoint.isWhitespace (c : CodePoint) : Bool := c = ' ' || c = '\t' || c = '\r' || c = '\n'

/-- Blanks, line ends and comments.  A comment after a number sign runs up to a line feed, any
other one up to the first sign that closes it. -/
inductive Gap : Text → Prop
  | nil : Gap []
  | blank {c : CodePoint} {cs : Text} : c.isWhitespace → Gap cs → Gap (c :: cs)
  | line {body cs : Text} : .char '\n' ∉ body → cs.head? = some (.char '\n') → Gap cs →
      Gap (.char '#' :: body ++ cs)
  | block {body cs : Text} : ¬ [.char '*', .char '/'] <:+: body ++ [.char '*'] → Gap cs →
      Gap (.char '/' :: .char '*' :: body ++ .char '*' :: .char '/' :: cs)

/-- From a place on, the characters are the tokens in order with gaps before, between and after
them, so no token begins with white space.  The last token is the end of input just after the
characters, and no other is one. -/
inductive Token.Interleaves : Position → List Token → Text → Prop
  | last {p : Position} {gap : Text} : Gap gap →
      Token.Interleaves p [Token.endAt (p.after gap)] gap
  | cons {p : Position} {gap cs : Text} {t : Token} {ts : List Token} : Gap gap →
      t.text ≠ [] → (∀ c ∈ t.text.head?, c.isWhitespace = false) → t.kind ≠ .endOfInput →
      t.span = Span.between (p.after gap) (p.after (gap ++ t.text)) →
      Token.Interleaves (p.after (gap ++ t.text)) ts cs →
      Token.Interleaves p (t :: ts) (gap ++ t.text ++ cs)

/-- Blanks or a comment in front join the first gap. -/
theorem Token.Interleaves.prepend {p : Position} {ts : List Token} {front cs : Text}
    (h : Token.Interleaves (p.after front) ts cs)
    (hgap : ∀ gap, Gap gap →
      (gap.head? = cs.head? ∨ gap = [] ∧ ∀ c ∈ cs.head?, c.isWhitespace = false) →
      Gap (front ++ gap)) :
    Token.Interleaves p ts (front ++ cs) := by
  cases h with
  | last hg =>
    rw [← Position.after_append]
    exact .last (hgap _ hg (.inl rfl))
  | @cons _ gap cs t ts hg hne hv hk hspan hrest =>
    rw [← Position.after_append] at hspan hrest
    rw [← Position.after_append, ← List.append_assoc] at hspan
    rw [← List.append_assoc] at hrest
    rw [← List.append_assoc, ← List.append_assoc]
    refine .cons (hgap gap hg ?_) hne hv hk hspan hrest
    cases gap with
    | cons c gap => exact .inl rfl
    | nil =>
      refine .inr ⟨rfl, fun c hc => hv c ?_⟩
      obtain ⟨d, text, ht⟩ := List.exists_cons_of_ne_nil hne
      simpa [ht] using hc

/-! ## Fragments -/

namespace Fragment

/-- From a place on, the characters are those of the fragments, none of which is empty. -/
inductive Tiles : Position → List Fragment → Text → Prop
  | nil (p : Position) : Tiles p [] []
  | cons {p : Position} {f : Fragment} {fs : List Fragment} {cs : Text} : f.text ≠ [] →
      f.span = Span.between p (p.after f.text) → Tiles (p.after f.text) fs cs →
      Tiles p (f :: fs) (f.text ++ cs)

/-- No two plain fragments stand next to each other. -/
def Apart (fs : List Fragment) : Prop :=
  fs.IsChain fun f g => ¬ (f.piece = .content ∧ g.piece = .content)

/-- The text of the fragment is an opener, the tokens with gaps, and a closing brace. -/
def Encloses (f : Fragment) (ts : List Token) : Prop :=
  ∃ inside, f.text = .char '$' :: .char '\x7b' :: inside ++ [.char '\x7d'] ∧
    Token.Interleaves (f.span.position.after [.char '$', .char '\x7b']) ts inside

end Fragment

/-- Between the quotes of a string stand its fragments. -/
def Token.Quoted (t : Token) : Prop :=
  ∃ quote inside, t.text = quote :: inside ++ [quote] ∧
    Fragment.Tiles (t.span.position.step quote) t.fragments inside ∧ Fragment.Apart t.fragments

/-- What holds of every fragment that the scanner makes. -/
structure Fragment.Sound (f : Fragment) : Prop where
  nonempty : f.text ≠ []
  placed : f.span = Span.between f.span.position (f.span.position.after f.text)
  escape : ∀ v, f.piece = .escape v → v.length ≤ 1
  encloses : ∀ ts, f.piece = .interpolation ts → f.Encloses ts
  strings : ∀ t ∈ f.tokens, t.kind = .string → t.Quoted

/-- What holds of every token that the scanner makes. -/
structure Token.Sound (t : Token) : Prop where
  quoted : t.kind = .string → t.Quoted
  deep : ∀ f ∈ t.deepFragments, f.Sound

/-- The scanner of interpolations stops at a closing brace, and its tokens account for what it
read. -/
def NestedScan.Sound (nested : NestedScan) : Prop :=
  ∀ opener c ts d, nested opener c = .ok (ts, d) →
    ∃ inside, c.Reads inside d ∧ d.rest.head? = some (.char '\x7d') ∧
      Token.Interleaves c.pos ts inside ∧ ∀ t ∈ ts, t.Sound

/-! ## Closed tokens -/

theorem Token.Interleaves.ends {p : Position} {ts : List Token} {cs : Text}
    (h : Token.Interleaves p ts cs) :
    ∃ inner, ts = inner ++ [Token.endAt (p.after cs)] ∧ ∀ t ∈ inner, t.kind ≠ .endOfInput := by
  induction h with
  | last => exact ⟨[], rfl, by simp⟩
  | @cons p gap cs t ts _ _ _ hk _ _ ih =>
    obtain ⟨inner, rfl, hi⟩ := ih
    refine ⟨t :: inner, ?_, by simpa using ⟨hk, hi⟩⟩
    rw [Position.after_append p (gap ++ t.text)]
    rfl

/-- An interpolation ends where its closing brace stands. -/
theorem Fragment.Sound.proper {f : Fragment} (h : f.Sound) : f.Proper := by
  refine ⟨h.placed, fun ts hp => ?_, h.escape⟩
  obtain ⟨inside, ht, hi⟩ := h.encloses ts hp
  obtain ⟨inner, rfl, hk⟩ := hi.ends
  refine ⟨inner, ?_, hk⟩
  have : f.text.dropLast = [.char '$', .char '\x7b'] ++ inside := by
    rw [ht]
    exact List.dropLast_concat
  rw [Fragment.lastPosition, this, Position.after_append]

theorem Token.Sound.closed {t : Token} (h : t.Sound) (hk : t.kind ≠ .endOfInput) : t.Closed :=
  ⟨hk, fun f hf => (h.deep f hf).proper⟩

/-! ## Recognisers -/

theorem Lexeme.variableLength?_pos {cs : Text} {n : Nat}
    (h : Lexeme.variableLength? cs = some n) : 0 < n := by
  unfold Lexeme.variableLength? at h
  split at h
  · obtain ⟨m, -, rfl⟩ := Option.map_eq_some_iff.mp h
    exact Nat.succ_pos m
  · cases h

/-- An escape takes a character, and stands for at most one code point. -/
theorem Lexeme.escape?_spec {allowed cs : Text} {n : Nat} {value : Text}
    (h : Lexeme.escape? allowed cs = some (n, value)) : 0 < n ∧ value.length ≤ 1 := by
  unfold Lexeme.escape? at h
  split at h
  · split at h
    · cases h
    split at h
    · split at h
      · obtain ⟨p, -, hp⟩ := Option.map_eq_some_iff.mp h
        cases hp
        exact ⟨by omega, by simp⟩
      · cases h
    · cases h
      refine ⟨by omega, ?_⟩
      unfold Lexeme.escapeValue
      (repeat' split) <;> simp
  · cases h

namespace Fragments

/-- What stands at a cursor that is not done. -/
theorem Reading.next_spec {r : Reading} {c : Cursor} :
    match r.next c with
    | .done => r.stop.holds c ∨ (c.rest = [] ∧ ∃ n, r.stop = .offset n)
    | .unterminated _ => True
    | .escape n value => c.rest ≠ [] ∧ 0 < n ∧ value.length ≤ 1
    | .variable n => c.rest ≠ [] ∧ 0 < n
    | .interpolation => ∃ cs, c.rest = .char '$' :: .char '\x7b' :: cs
    | .plain => c.rest ≠ [] := by
  unfold Reading.next
  by_cases hstop : r.stop.holds c
  · rw [if_pos hstop]
    exact .inl hstop
  rw [if_neg hstop]
  by_cases hend : c.rest = []
  · rw [if_pos (by simp [Cursor.atEnd, hend])]
    cases hr : r.stop with
    | quote => trivial
    | offset n => exact .inr ⟨hend, n, rfl⟩
  rw [if_neg (by simp [Cursor.atEnd, hend])]
  unfold Reading.special
  cases he : Lexeme.escape? r.escapes c.rest with
  | some p =>
    obtain ⟨n, value⟩ := p
    exact ⟨hend, Lexeme.escape?_spec he⟩
  | none =>
    dsimp only
    by_cases hi : r.interpolate = true
    · rw [if_pos hi]
      by_cases hp : [.char '$', .char '\x7b'].isPrefixOf c.rest = true
      · rw [if_pos hp]
        obtain ⟨cs, hcs⟩ := List.isPrefixOf_iff_prefix.mp hp
        exact ⟨cs, hcs.symm⟩
      · rw [if_neg hp]
        cases hv : Lexeme.variableLength? c.rest with
        | none => exact hend
        | some n => exact ⟨hend, Lexeme.variableLength?_pos hv⟩
    · rw [if_neg hi]
      exact hend

/-! ## Content -/

/-- A fragment that holds what is read between two cursors. -/
theorem tiles_cons {c d : Cursor} {cs ds : Text} {fs : List Fragment} {piece : Piece}
    (h : c.Reads cs d) (hne : cs ≠ []) (ht : Fragment.Tiles d.pos fs ds) :
    Fragment.Tiles c.pos (.mk (c.upTo d) (c.spanTo d) piece :: fs) (cs ++ ds) := by
  rw [h.upTo_eq, h.spanTo_eq]
  rw [h.pos] at ht
  exact .cons hne rfl ht

/-- The plain characters read so far tile what was read. -/
theorem content_tiles {run c : Cursor} {cs ds : Text} {fs : List Fragment}
    (h : run.Reads cs c) (ht : Fragment.Tiles c.pos fs ds) :
    Fragment.Tiles run.pos (content run c ++ fs) (cs ++ ds) := by
  unfold content
  split
  case isTrue hle =>
    have : cs = [] := by
      rw [h.offset] at hle
      exact List.length_eq_zero_iff.mp (by omega)
    subst this
    rw [h.pos] at ht
    exact ht
  case isFalse hlt =>
    refine tiles_cons h (fun he => hlt ?_) ht
    rw [h.offset, he]
    exact Nat.le_refl _

/-- Plain characters before a fragment that is not plain stand alone. -/
theorem content_apart {run c : Cursor} {f : Fragment} {fs : List Fragment}
    (hf : f.piece ≠ .content) (h : Fragment.Apart fs) :
    Fragment.Apart (content run c ++ f :: fs) := by
  have hfs : Fragment.Apart (f :: fs) := by
    cases fs with
    | nil => exact .singleton _
    | cons g fs => exact .cons_cons (fun hk => hf hk.1) h
  unfold content
  split
  case isTrue => exact hfs
  case isFalse => exact .cons_cons (fun hk => hf hk.2) hfs

/-! ## The scan of fragments -/

/-- A fragment that is no interpolation is sound if it holds what was read. -/
theorem sound_of_reads {c d : Cursor} {cs : Text} {piece : Piece} (h : c.Reads cs d)
    (hne : cs ≠ []) (hv : ∀ v, piece = .escape v → v.length ≤ 1)
    (hi : ∀ ts, piece ≠ .interpolation ts) :
    ∀ g ∈ (Fragment.mk (c.upTo d) (c.spanTo d) piece).deep, g.Sound := by
  intro g hg
  rw [h.upTo_eq, h.spanTo_eq] at hg
  have htokens : (Fragment.mk cs (Span.between c.pos (c.pos.after cs)) piece).tokens = [] := by
    unfold Fragment.tokens
    split
    · exact absurd ‹_› (hi _)
    · rfl
  rcases Fragment.mem_deep.mp hg with rfl | ⟨t, ht, -⟩
  · exact ⟨hne, rfl, hv, fun ts hts => absurd hts (hi ts), by simp [htokens]⟩
  · simp [htokens] at ht

/-- An interpolation is its opener, what the scanner of its inside reads, and the brace. -/
theorem interpolation_sound {nested : NestedScan} (hn : nested.Sound) {c after : Cursor}
    {cs : Text} {f : Fragment} (hc : c.rest = .char '$' :: .char '\x7b' :: cs)
    (h : interpolation nested c = .ok (f, after)) :
    ∃ ws ts, c.Reads ws after ∧ ws ≠ [] ∧
      f = .mk (c.upTo after) (c.spanTo after) (.interpolation ts) ∧ ∀ g ∈ f.deep, g.Sound := by
  unfold interpolation at h
  obtain ⟨⟨ts, brace⟩, hts, h⟩ := bind_eq_ok.mp h
  cases h
  obtain ⟨inside, hr, hbrace, hi, ht⟩ := hn _ _ _ _ hts
  obtain ⟨rest, hrest⟩ : ∃ rest, brace.rest = .char '\x7d' :: rest := by
    cases hb : brace.rest with
    | nil => simp [hb] at hbrace
    | cons b rest => exact ⟨rest, by simpa [hb] using hbrace⟩
  have hopen : c.Reads [.char '$', .char '\x7b'] (c.skip 2) := by
    simpa [hc] using Cursor.reads_skip c 2
  have hread := hopen.trans (hr.trans (Cursor.reads_skip_one hrest))
  refine ⟨_, ts, hread, by simp, rfl, ?_⟩
  intro g hg
  rcases Fragment.mem_deep.mp hg with rfl | ⟨t, hmem, hg⟩
  · rw [hread.upTo_eq, hread.spanTo_eq]
    refine ⟨by simp [Fragment.text], rfl, by simp [Fragment.piece], ?_, ?_⟩
    · rintro _ ⟨⟩
      refine ⟨inside, rfl, ?_⟩
      rw [hopen.pos] at hi
      exact hi
    · exact fun t hmem hk => (ht t hmem).quoted hk
  · exact (ht t hmem).deep g hg

/-- The fragments tile the plain characters that were pending and what was read. -/
structure Scanned (r : Reading) (run c last : Cursor) (cs : Text) (fs : List Fragment) :
    Prop where
  tiles : ∃ ds, c.Reads ds last ∧ Fragment.Tiles run.pos fs (cs ++ ds)
  apart : Fragment.Apart fs
  sound : ∀ f ∈ fs, ∀ g ∈ f.deep, g.Sound
  stops : r.stop.holds last ∨ (last.rest = [] ∧ ∃ n, r.stop = .offset n)

theorem content_sound {run c : Cursor} {cs : Text} (h : run.Reads cs c) :
    ∀ f ∈ content run c, ∀ g ∈ f.deep, g.Sound := by
  unfold content
  split
  case isTrue => simp
  case isFalse hlt =>
    have hne : cs ≠ [] := by
      rintro rfl
      exact hlt (by simp [h.offset])
    intro f hf
    rw [List.mem_singleton.mp hf]
    exact sound_of_reads h hne (by simp) (by simp)

/-- The scan ends, and the plain characters that were pending are the last fragment. -/
theorem scanned_done {r : Reading} {run c : Cursor} {cs : Text} (hrun : run.Reads cs c)
    (hstop : r.stop.holds c ∨ (c.rest = [] ∧ ∃ n, r.stop = .offset n)) :
    Scanned r run c c cs (content run c) := by
  refine ⟨⟨[], .refl c, ?_⟩, ?_, content_sound hrun, hstop⟩
  · simpa using content_tiles hrun (.nil c.pos)
  · unfold content
    split
    · exact .nil
    · exact .singleton _

/-- The scan goes on after a fragment that is not plain. -/
theorem scanned_cons {r : Reading} {run c after last : Cursor} {cs ws : Text}
    {piece : Piece} {fs : List Fragment} (hrun : run.Reads cs c) (hw : c.Reads ws after)
    (hne : ws ≠ []) (hpiece : piece ≠ .content)
    (hsound : ∀ g ∈ (Fragment.mk (c.upTo after) (c.spanTo after) piece).deep, g.Sound)
    (h : Scanned r after after last [] fs) :
    Scanned r run c last cs
      (content run c ++ .mk (c.upTo after) (c.spanTo after) piece :: fs) := by
  obtain ⟨ds, hr, ht⟩ := h.tiles
  refine ⟨⟨ws ++ ds, hw.trans hr, ?_⟩, content_apart hpiece h.apart, ?_, h.stops⟩
  · exact content_tiles hrun (tiles_cons hw hne ht)
  · intro f hf
    rcases List.mem_append.mp hf with hf | hf
    · exact content_sound hrun f hf
    rcases List.mem_cons.mp hf with rfl | hf
    · exact hsound
    · exact h.sound f hf

theorem scanFrom_scanned {nested : NestedScan} (hn : nested.Sound) {r : Reading} {fuel : Nat}
    {run c last : Cursor} {cs : Text} {fs : List Fragment} (hrun : run.Reads cs c)
    (h : scanFrom nested r fuel run c = .ok (fs, last)) : Scanned r run c last cs fs := by
  induction fuel generalizing run c cs fs with
  | zero => cases h
  | succ fuel ih =>
    have resumed {f : Fragment} {after : Cursor}
        (h : (scanFrom nested r fuel after after >>= fun p =>
          .ok (content run c ++ f :: p.1, p.2)) = Except.ok (fs, last)) :
        ∃ more, fs = content run c ++ f :: more ∧ Scanned r after after last [] more := by
      obtain ⟨⟨more, last'⟩, hm, h⟩ := bind_eq_ok.mp h
      cases h
      exact ⟨more, rfl, ih (.refl after) hm⟩
    have hspec := @Reading.next_spec r c
    unfold scanFrom at h
    cases hnext : r.next c with
    | done =>
      simp only [hnext, Except.ok.injEq, Prod.mk.injEq] at h hspec
      obtain ⟨rfl, rfl⟩ := h
      exact scanned_done hrun hspec
    | unterminated opener => simp [hnext, reject] at h
    | escape n value =>
      simp only [hnext] at h hspec
      obtain ⟨hne, hpos, hv⟩ := hspec
      obtain ⟨more, rfl, hmore⟩ := resumed h
      have hread := Cursor.reads_skip c n
      have hne : c.rest.take n ≠ [] := by simp [hne, Nat.pos_iff_ne_zero.mp hpos]
      exact scanned_cons hrun hread hne (by simp)
        (sound_of_reads hread hne (by rintro _ ⟨⟩; exact hv) (by simp)) hmore
    | «variable» n =>
      simp only [hnext] at h hspec
      obtain ⟨hne, hpos⟩ := hspec
      obtain ⟨more, rfl, hmore⟩ := resumed h
      have hread := Cursor.reads_skip c n
      have hne : c.rest.take n ≠ [] := by simp [hne, Nat.pos_iff_ne_zero.mp hpos]
      exact scanned_cons hrun hread hne (by simp)
        (sound_of_reads hread hne (by simp) (by simp)) hmore
    | interpolation =>
      simp only [hnext] at h hspec
      obtain ⟨rest, hc⟩ := hspec
      obtain ⟨⟨f, after⟩, hf, h⟩ := bind_eq_ok.mp h
      obtain ⟨more, rfl, hmore⟩ := resumed h
      obtain ⟨ws, ts, hread, hne, rfl, hsound⟩ := interpolation_sound hn hc hf
      exact scanned_cons hrun hread hne (by simp) hsound hmore
    | plain =>
      -- The plain character joins those that are pending.
      simp only [hnext] at h hspec
      obtain ⟨ch, rest, hc⟩ := List.exists_cons_of_ne_nil hspec
      have hone := Cursor.reads_skip_one hc
      have hmore := ih (hrun.trans hone) h
      obtain ⟨ds, hr, ht⟩ := hmore.tiles
      exact ⟨⟨ch :: ds, hone.trans hr, by simpa using ht⟩, hmore.apart, hmore.sound, hmore.stops⟩

/-- What a scan of fragments answers tiles what it read. -/
theorem scan_scanned {nested : NestedScan} (hn : nested.Sound) {r : Reading} {c last : Cursor}
    {fs : List Fragment} (h : scan nested r c = .ok (fs, last)) : Scanned r c c last [] fs :=
  scanFrom_scanned hn (.refl c) h

end Fragments

end ManifestTree
