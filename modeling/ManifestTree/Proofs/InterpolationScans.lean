import ManifestTree.Proofs.InsideScans
import ManifestTree.Proofs.ScanMoves

/-!
# Interpolations scanned alone

Every interpolation that a scan finds, in a string or in a heredoc body and at any depth, was read
by a run of its own for its inside.  `Fragment.Made` says so, and it passes from the fragments of a
token to everything within it.  So each interpolation holds the tokens that its inside has as a
source of its own.
-/

namespace ManifestTree

/-- An interpolation was read where an opener stands, with a run for its inside. -/
def Fragment.Made (f : Fragment) : Prop :=
  ∀ ts, f.piece = .interpolation ts → ∃ fuel c cs after, c.rest = .char '$' :: .char '\x7b' :: cs ∧
    Fragments.interpolation (ScanState.nestedRun fuel) c = .ok (f, after)

/-- The interpolations among the fragments of the token and of its body were made in this way. -/
structure Token.Made (t : Token) : Prop where
  fragments : ∀ f ∈ t.fragments, f.Made
  body : ∀ b ∈ t.body?, ∀ f ∈ b.fragments, f.Made

variable {fuel : Nat}

/-! ## Fragments -/

theorem Fragment.made_of_flat {f : Fragment} (h : ∀ ts, f.piece ≠ .interpolation ts) : f.Made :=
  fun ts hp => absurd hp (h ts)

namespace Fragments

theorem content_made (run c : Cursor) : ∀ f ∈ content run c, f.Made := by
  unfold content
  split
  · exact List.forall_mem_nil _
  · exact List.forall_mem_singleton.mpr (Fragment.made_of_flat fun ts => nofun)

theorem scanFrom_made {r : Reading} {steps : Nat} {run c last : Cursor} {fs : List Fragment}
    (h : scanFrom (ScanState.nestedRun fuel) r steps run c = .ok (fs, last)) :
    ∀ f ∈ fs, f.Made := by
  induction steps generalizing run c fs with
  | zero => cases h
  | succ steps ih =>
    have resumed {f : Fragment} {after : Cursor} (hf : f.Made)
        (h : (scanFrom (ScanState.nestedRun fuel) r steps after after >>= fun p =>
          .ok (content run c ++ f :: p.1, p.2)) = Except.ok (fs, last)) : ∀ g ∈ fs, g.Made := by
      obtain ⟨⟨more, last'⟩, hm, h⟩ := bind_eq_ok.mp h
      cases h
      exact List.forall_mem_append.mpr
        ⟨content_made run c, List.forall_mem_cons.mpr ⟨hf, ih hm⟩⟩
    have hspec := @Reading.next_spec r c
    unfold scanFrom at h
    cases hnext : r.next c with
    | done =>
      simp only [hnext] at h
      cases h
      exact content_made run _
    | unterminated opener =>
      simp only [hnext] at h
      cases h
    | escape n value =>
      simp only [hnext] at h
      exact resumed (Fragment.made_of_flat (by rintro ts ⟨⟩)) h
    | «variable» n =>
      simp only [hnext] at h
      exact resumed (Fragment.made_of_flat (by rintro ts ⟨⟩)) h
    | interpolation =>
      simp only [hnext] at h hspec
      obtain ⟨cs, hc⟩ := hspec
      obtain ⟨⟨f, after⟩, hf, h⟩ := bind_eq_ok.mp h
      exact resumed (fun ts _ => ⟨fuel, c, cs, after, hc, hf⟩) h
    | plain =>
      simp only [hnext] at h
      exact ih h

end Fragments

/-! ## Heredoc bodies -/

namespace PendingHeredoc

theorem scanLines_made {tag : HeredocTag} {indent : Option Nat} {chomp : Bool}
    {lines : List SourceLine} {resume : Cursor} {fs : List Fragment}
    (h : scanLines (ScanState.nestedRun fuel) tag indent chomp resume lines = .ok fs) :
    ∀ f ∈ fs, f.Made := by
  induction lines generalizing resume fs with
  | nil =>
    cases h
    exact List.forall_mem_nil _
  | cons line more ih =>
    rcases scanLines_cons_cases h with ⟨-, h⟩ | ⟨b, front, last, back, -, hfront, hback, rfl⟩
    · exact ih h
    · exact List.forall_mem_append.mpr ⟨Fragments.scanFrom_made hfront, ih hback⟩

theorem resolve_made {pending : PendingHeredoc} {c : Cursor} {b : HeredocBody}
    (h : pending.resolve (ScanState.nestedRun fuel) c = .ok b) : ∀ f ∈ b.fragments, f.Made := by
  obtain ⟨body, line, closing, fs, -, hfs, rfl⟩ := resolve_eq_ok.mp h
  exact scanLines_made hfs

end PendingHeredoc

theorem resolveAll_made {pending : List PendingHeredoc} {c d : Cursor} {bodies : List HeredocBody}
    (h : resolveAll (ScanState.nestedRun fuel) pending c = .ok (bodies, d)) :
    ∀ b ∈ bodies, ∀ f ∈ b.fragments, f.Made := by
  induction pending generalizing c bodies with
  | nil =>
    cases h
    exact List.forall_mem_nil _
  | cons p pending ih =>
    obtain ⟨b, bs, hb, hbs, rfl⟩ := resolveAll_cons_eq_ok.mp h
    exact List.forall_mem_cons.mpr ⟨PendingHeredoc.resolve_made hb, ih hbs⟩

/-! ## Steps -/

namespace ScanState

variable {s s' : ScanState}

/-- The tokens and bodies so far were made in this way. -/
structure Made (s : ScanState) : Prop where
  tokens : ∀ t ∈ s.tokens, t.Made
  bodies : ∀ b ∈ s.bodies, ∀ f ∈ b.fragments, f.Made

theorem resolveHeredocs_made (hs : s.Made) (h : s.resolveHeredocs (nestedRun fuel) = .ok s') :
    s'.Made := by
  unfold resolveHeredocs at h
  obtain ⟨⟨bodies, cursor⟩, hb, h⟩ := bind_eq_ok.mp h
  cases h
  exact ⟨hs.tokens, List.forall_mem_append.mpr ⟨hs.bodies, resolveAll_made hb⟩⟩

/-- A step keeps the tokens and bodies made with runs. -/
theorem step_made (hs : s.Made) (h : s.step (nestedRun fuel) = .ok (some s')) : s'.Made := by
  have carried {t : Token} (ht : t.Made) : ∀ u ∈ t :: s.tokens, u.Made :=
    List.forall_mem_cons.mpr ⟨ht, hs.tokens⟩
  cases step_moves h with
  | passes => exact ⟨hs.tokens, hs.bodies⟩
  | reads => exact ⟨carried ⟨List.forall_mem_nil _, nofun⟩, hs.bodies⟩
  | quotes hfs => exact ⟨carried ⟨Fragments.scanFrom_made hfs, nofun⟩, hs.bodies⟩
  | opens => exact ⟨carried ⟨List.forall_mem_nil _, nofun⟩, hs.bodies⟩
  | resolves _ h => exact resolveHeredocs_made (s := s.blank) ⟨hs.tokens, hs.bodies⟩ h

/-! ## Runs -/

theorem attachBodies_made {ts : List Token} {bodies : List HeredocBody} (ht : ∀ t ∈ ts, t.Made)
    (hb : ∀ b ∈ bodies, ∀ f ∈ b.fragments, f.Made) : ∀ t ∈ attachBodies ts bodies, t.Made := by
  induction ts, bodies using attachBodies.induct with
  | case1 =>
    rw [attachBodies]
    exact List.forall_mem_nil _
  | case2 text span tag _ ts body bodies ih =>
    rw [attachBodies]
    obtain ⟨-, ht⟩ := List.forall_mem_cons.mp ht
    obtain ⟨hbody, hb⟩ := List.forall_mem_cons.mp hb
    refine List.forall_mem_cons.mpr ⟨⟨List.forall_mem_nil _, ?_⟩, ih ht hb⟩
    rintro _ ⟨⟩
    exact hbody
  | case3 t ts bodies hno ih =>
    rw [attachBodies]
    · obtain ⟨h, ht⟩ := List.forall_mem_cons.mp ht
      exact List.forall_mem_cons.mpr ⟨h, ih ht hb⟩
    · exact hno

theorem finish_made {ts : List Token} (hs : s.Made)
    (h : s.finish (nestedRun fuel) = .ok (ts, s')) : ∀ t ∈ ts, t.Made := by
  have ended (p : Position) : ∀ t ∈ [Token.endAt p], t.Made :=
    List.forall_mem_singleton.mpr ⟨List.forall_mem_nil _, nofun⟩
  unfold finish at h
  split at h
  · split at h
    · cases h
    · cases h
      exact List.forall_mem_append.mpr
        ⟨fun t ht => hs.tokens t (List.mem_reverse.mp ht), ended _⟩
  · obtain ⟨s₁, hres, h⟩ := bind_eq_ok.mp h
    cases h
    have hs₁ := resolveHeredocs_made hs hres
    exact List.forall_mem_append.mpr
      ⟨attachBodies_made (fun t ht => hs₁.tokens t (List.mem_reverse.mp ht)) hs₁.bodies, ended _⟩

theorem run_made {ts : List Token} (hs : s.Made) (h : run fuel s = .ok (ts, s')) :
    ∀ t ∈ ts, t.Made := by
  induction fuel generalizing s with
  | zero => cases h
  | succ fuel ih =>
    unfold run at h
    obtain ⟨r, hstep, h⟩ := bind_eq_ok.mp h
    cases r with
    | none =>
      have hfinish : s.finish (nestedRun fuel) = .ok (ts, s') := h
      exact finish_made hs hfinish
    | some s₁ => exact ih (step_made hs hstep) h

theorem start_made (opener : Option Span) (c : Cursor) : (start opener c).Made :=
  ⟨List.forall_mem_nil _, List.forall_mem_nil _⟩

end ScanState

/-! ## Interpolations -/

namespace Fragment

/-- The run that read the inside of an interpolation found the tokens and comments that the inside
has as a source of its own. -/
theorem Made.run {f : Fragment} {ts : List Token} (h : f.Made) (hp : f.piece = .interpolation ts) :
    ∃ fuel c after s, Fragments.interpolation (ScanState.nestedRun fuel) c = .ok (f, after) ∧
      ScanState.run fuel (ScanState.start (some (c.here 2)) (c.skip 2)) = .ok (ts, s) ∧
        ∃ inner us comments, f.text = [.char '$', .char '\x7b'] ++ inner ++ [.char '\x7d'] ∧
          Token.scan inner = .ok (us, comments) ∧
            ts = us.map (Token.translate (f.span.position.after [.char '$', .char '\x7b'])) ∧
              s.comments.reverse =
                comments.map
                    (Token.translate (f.span.position.after [.char '$', .char '\x7b'])) := by
  obtain ⟨fuel, c, cs, after, hc, hf⟩ := h ts hp
  have hmade := hf
  unfold Fragments.interpolation at hf
  obtain ⟨⟨ts', brace⟩, hnested, hf⟩ := bind_eq_ok.mp hf
  cases hf
  cases hp
  obtain ⟨⟨ts', s'⟩, hrun, hnested⟩ := bind_eq_ok.mp hnested
  cases hnested
  obtain ⟨inner, rest, us, comments, hread, hbrace, hscan, hts, hcomments⟩ :=
    ScanState.run_inside hrun
  have hopen : c.Reads [.char '$', .char '\x7b'] (c.skip 2) := by
    simpa [hc] using Cursor.reads_skip c 2
  have hwhole := hopen.trans (hread.trans (Cursor.reads_skip_one hbrace))
  rw [hopen.pos] at hts hcomments
  refine ⟨fuel, c, _, s', hmade, hrun, inner, us, comments, ?_, hscan, hts, hcomments⟩
  rw [List.append_assoc]
  exact hwhole.upTo_eq

theorem Made.tokens {f : Fragment} (h : f.Made) : ∀ t ∈ f.tokens, t.Made := by
  intro t ht
  obtain ⟨fuel, c, after, s, -, hrun, -⟩ := h.run (Fragment.piece_of_mem_tokens ht)
  exact ScanState.run_made (ScanState.start_made _ _) hrun t ht

/-- Everything within a fragment that was made so was. -/
theorem Made.deep {f : Fragment} (h : f.Made) : ∀ g ∈ f.deep, g.Made :=
  Fragment.forall_deep (fun _ hf t ht => ⟨(hf.tokens t ht).fragments, (hf.tokens t ht).body⟩) h

end Fragment

/-- Everything within a token that was made so was. -/
theorem Token.Made.deep {t : Token} (h : t.Made) : ∀ f ∈ t.deepFragments, f.Made := by
  intro f hf
  rcases Token.mem_deepFragments.mp hf with ⟨g, hg, hf⟩ | ⟨b, hb, hf⟩
  · exact (h.fragments g hg).deep f hf
  · obtain ⟨g, hg, hf⟩ := HeredocBody.mem_deepFragments.mp hf
    exact (h.body b hb g hg).deep f hf

/-- Every interpolation of a source was read by a run for its inside. -/
theorem Token.scan_made {source : Text} {tokens comments : List Token}
    (h : Token.scan source = .ok (tokens, comments)) : ∀ f ∈ Token.deepAll tokens, f.Made := by
  unfold Token.scan at h
  obtain ⟨⟨ts, s⟩, hrun, h⟩ := bind_eq_ok.mp h
  cases h
  intro f hf
  obtain ⟨t, ht, hf⟩ := Token.mem_deepAll.mp hf
  exact (ScanState.run_made (ScanState.start_made _ _) hrun t ht).deep f hf

/-- If the fragment is an interpolation, then the characters between its braces have tokens of their
own as a source, which are the tokens that it holds, end of input included, but for places being
counted from the start of those characters. -/
def Fragment.ScansAlone (source : Text) (f : Fragment) : Prop :=
  ∀ ts, f.piece = .interpolation ts → ∃ inner us,
    f.text = [.char '$', .char '\x7b'] ++ inner ++ [.char '\x7d'] ∧
      (f.span.position.after [.char '$', .char '\x7b']).Holds source inner ∧
        Token.tokenize inner false = .ok us ∧
          ts = us.map (Token.translate (f.span.position.after [.char '$', .char '\x7b']))

/-- Scanning the inside of an interpolation within a source, at any depth, agrees with scanning it
alone. -/
theorem Token.scan_scansAlone {source : Text} {tokens comments : List Token}
    (h : Token.scan source = .ok (tokens, comments)) :
    ∀ f ∈ Token.deepAll tokens, f.ScansAlone source := by
  intro f hf ts hp
  obtain ⟨-, -, -, -, -, -, inner, us, cs, htext, hscan, hts, -⟩ := (Token.scan_made h f hf).run hp
  have hholds :
      f.span.position.Holds source ([.char '$', .char '\x7b'] ++ inner ++ [.char '\x7d']) := by
    rw [← htext]
    exact (Token.scan_located h f hf).covers.holds
  exact ⟨inner, us, htext, hholds.left.right, bind_eq_ok.mpr ⟨_, hscan, rfl⟩, hts⟩

/-- An interpolation with a comment, a line end and a string with another interpolation, before a
slash. -/
theorem Token.scan_scansAlone_nested : ∃ tokens comments,
    Token.scan (Text.ofString "x \"$\x7b [1, # c\n \"$\x7by\x7d/\"] \x7d/\"") =
        .ok (tokens, comments) ∧
      ((Token.deepAll tokens).filter fun f => !f.tokens.isEmpty).length = 2 ∧
        ∀ f ∈ Token.deepAll tokens,
          f.ScansAlone (Text.ofString "x \"$\x7b [1, # c\n \"$\x7by\x7d/\"] \x7d/\"") := by
  have hrun :
      (Token.scan (Text.ofString "x \"$\x7b [1, # c\n \"$\x7by\x7d/\"] \x7d/\"")).toOption.map
      (fun p => ((Token.deepAll p.1).filter fun f => !f.tokens.isEmpty).length) = some 2 := by cbv
  obtain ⟨⟨tokens, comments⟩, hscan, hlen⟩ := exists_ok_of_map hrun
  exact ⟨tokens, comments, hscan, hlen, Token.scan_scansAlone hscan⟩

end ManifestTree
